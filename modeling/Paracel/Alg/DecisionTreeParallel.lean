import Paracel.Alg.DecisionTree
import Paracel.Ps.Shared

/-!
# The recommendation decision tree on several workers

`recommendation_decision_tree` (`alg/decision_tree_rec/dtr.hpp`) against
`recommendation_decision_tree_serial` (`dtr_serial.hpp`). In the first every
worker keeps the whole queue, but works out only the errors of the items that it
has loaded, and fetches those of all from the servers. An item that was chosen
keeps its place there: its error is overwritten with `DBL_MAX`, which the serial
class puts into `err` by itself. The errors are sums of `double`s; both classes
take the same sums in the same order, so nothing is said about how they round.
`sync()` is taken as `paracel_sync()`.
-/

namespace Paracel.DecisionTree

open StepSystem Worklist

/-- What both classes are given, and the arithmetic on `double` that they share. -/
structure Task (D : Type) where
  bigraphU : BigraphContinuous
  bigraphI : BigraphContinuous
  height : Int
  withDepth : Bool
  withAlpha : Bool
  alpha : UInt64
  ofRating : ℚ → D
  ofCount : UInt64 → D
  dblMax : D

/-- `item_sz`. -/
def Task.itemSz {D : Type} (task : Task D) : Nat := task.bigraphI.v

/-- Three vectors with an entry for each item: the sums of some ratings and of their squares, and
    how many they are. -/
structure Sums (D : Type) where
  sum : Nat → D
  sum2 : Nat → D
  n : Nat → UInt64

section Errors

variable {D : Type} [Zero D] [Add D] [Sub D] [Mul D] [Div D] (task : Task D)

/-- The vectors as they are declared. -/
def Sums.zero : Sums D := ⟨fun _ => 0, fun _ => 0, fun _ => 0⟩

/-- One more rating of item `j`. -/
def Sums.add (s : Sums D) (j : Nat) (r : D) : Sums D where
  sum := Function.update s.sum j (s.sum j + r)
  sum2 := Function.update s.sum2 j (s.sum2 j + r * r)
  n := Function.update s.n j (s.n j + 1)

/-- `sum_all`, `sum2_all` and `nall`. -/
def sumAll (St : List Nat) : Sums D :=
  (List.range task.itemSz).foldl
    (fun s i => (task.bigraphI.adjacent i).foldl
      (fun s pair => if pair.1 ∈ St then s.add i (task.ofRating pair.2) else s) s)
    .zero

/-- The ratings by user `u`, added up. -/
def addUser (u : Nat) (s : Sums D) : Sums D :=
  (task.bigraphU.adjacent u).foldl
    (fun s pairInside => s.add pairInside.1 (task.ofRating pairInside.2)) s

/-- `sum_tL`, `sum2_tL` and `n_tL`, and the same of `tH`, for splitting by item `i`. -/
def sumSplit (St : List Nat) (i : Nat) : Sums D × Sums D :=
  (task.bigraphI.adjacent i).foldl
    (fun t pair =>
      if pair.1 ∈ St then
        if 4 ≤ pair.2 then (addUser task pair.1 t.1, t.2) else (t.1, addUser task pair.1 t.2)
      else t)
    (.zero, .zero)

/-- `foo`. -/
def foo (s2 s : D) (n : UInt64) : D :=
  if n = 0 then 0 else s2 - s * s / task.ofCount n

/-- The error of splitting by item `i`, as it is summed up in `err[i]`. -/
def errOf (St : List Nat) (i : Nat) : D :=
  let all := sumAll task St
  let (tL, tH) := sumSplit task St i
  (List.range task.itemSz).foldl
    (fun err ii =>
      let e2tL := foo task (tL.sum2 ii) (tL.sum ii) (tL.n ii)
      let e2tH := foo task (tH.sum2 ii) (tH.sum ii) (tH.n ii)
      let e2tU := foo task (all.sum2 ii - tL.sum2 ii - tH.sum2 ii)
        (all.sum ii - tL.sum ii - tH.sum ii) (all.n ii - tL.n ii - tH.n ii)
      err + (e2tL + e2tH + e2tU))
    0

variable [LT D] [DecidableLT D]

/-- Goes through the rest of a list from position `i` on, with the best so far at `indx`. -/
def minElementFrom (best : D) (indx i : Nat) : List D → Nat
  | [] => indx
  | e :: err =>
      if e < best then minElementFrom e i (i + 1) err else minElementFrom best indx (i + 1) err

/-- `minmax_element(err.begin(), err.end()).first - err.begin()`. -/
def minElement : List D → Nat
  | [] => 0
  | e :: err => minElementFrom e 0 1 err

/-- What stands in `err[i]` before the least one is looked for. -/
def errAt (result St : List Nat) (i : Nat) : D :=
  if i ∈ result then task.dblMax else errOf task St i

/-- `err` in the serial class. -/
def serialErr (result St : List Nat) : List D :=
  (List.range task.itemSz).map (errAt task result St)

/-- The serial class. -/
def Task.serial : Config where
  bigraphU := task.bigraphU
  height := task.height
  withDepth := task.withDepth
  withAlpha := task.withAlpha
  alpha := task.alpha
  partitionId := fun result St => minElement (serialErr task result St)

end Errors

/-- `generate_decision_tree` returns at one of its two tests. -/
def Returns (cfg : Config) (level : Nat) (St : List Nat) : Prop :=
  cfg.withDepth ∧ (level : Int) = cfg.height ∨ cfg.withAlpha ∧ accum cfg St < cfg.alpha

instance instDecidableReturns (cfg : Config) (level : Nat) (St : List Nat) :
    Decidable (Returns cfg level St) :=
  inferInstanceAs (Decidable (cfg.withDepth ∧ (level : Int) = cfg.height ∨
    cfg.withAlpha ∧ accum cfg St < cfg.alpha))

/-- `row_map` of each worker: the items in its part of the graph. Every item is in some part. -/
structure RowMaps (n itemSz : Nat) where
  rowMap : Fin n → List Nat
  lt : ∀ w, ∀ i ∈ rowMap w, i < itemSz
  cover : ∀ i < itemSz, ∃ w, i ∈ rowMap w

/-- `"err_" + std::to_string(i)`. -/
def errKey (i : Nat) : Str := lit "err_" ++ toStr i

/-- Where a worker is: at the head of the loop of `solve`, or in `generate_decision_tree` before
    the reads of the errors or behind them. -/
inductive Loc (D : Type) where
  | node (s : Vars) (q : List (List Nat))
  | read (s : Vars) (St : List Nat) (q : List (List Nat))
  | split (s : Vars) (St : List Nat) (q : List (List Nat)) (err : List D)

/-- The variables and the queue at the head of the loop. -/
def Loc.head {D : Type} : Loc D → Vars × List (List Nat)
  | .node s q => (s, q)
  | .read s St q | .split s St q _ => (s, St :: q)

section Program

variable {D : Type} [Zero D] [Add D] [Sub D] [Mul D] [Div D] [LT D] [DecidableLT D] [Inhabited D]
  {n m : Nat} (task : Task D) (rows : RowMaps n task.itemSz) (getServer : Str → Fin m)

/-- The calls that a worker makes before it next waits for the others. -/
def calls (w : Fin n) : Loc D → List (SrvCall m D)
  | .node _ [] => []
  | .node s (St :: _) =>
      if Returns task.serial s.level St then []
      else ((rows.rowMap w).filter fun oi => oi ∉ s.result).map fun oi =>
        .paracelWrite getServer (errKey oi) (errOf task St oi)
  | .read _ _ _ => (List.range task.itemSz).map fun i => .paracelRead getServer (errKey i)
  | .split _ _ _ err => [.paracelWrite getServer (errKey (minElement err)) task.dblMax]

/-- The barrier that a worker enters then, if it does not leave `solve`. -/
def meet : Loc D → Option Unit
  | .node _ [] => none
  | .node _ (_ :: _) | .read _ _ _ | .split _ _ _ _ => some ()

/-- Where it goes on. -/
def next (l : Loc D) (rs : List (Option (Reply D))) : Loc D :=
  match l with
  | .node s [] => .node s []
  | .node s (St :: q) =>
      if Returns task.serial s.level St then .node s.count q else .read s St q
  | .read s St q => .split s St q (rs.map readVal)
  | .split s St q err =>
      let partitionId := minElement err
      .node { s with result := s.result ++ [partitionId] }.count
        (q ++ [partL task.serial partitionId St, partH task.serial partitionId St,
          partU task.serial partitionId St])

/-- `solve`. -/
def parallel : Segments.Program n (Loc D) (SrvCall m D) (Option (Reply D)) Unit where
  calls := calls task rows getServer
  meet := fun _ l _ => meet l
  next := fun _ l rs _ => next task l rs
  kind := fun _ => 0

end Program

/-! ### The serial loop -/

section Serial

variable {cfg : Config} {s s' : Vars} {q q' : List (List Nat)} {St : List Nat}

theorem generate_of_returns {level : Nat} (result : List Nat) (h : Returns cfg level St) :
    generateDecisionTree cfg level result St = (result, []) := by
  rw [generateDecisionTree]
  rcases h with h | h
  · rw [if_pos h]
  · rw [if_pos h]
    split <;> rfl

theorem generate_of_not_returns {level : Nat} (result : List Nat) (h : ¬Returns cfg level St) :
    generateDecisionTree cfg level result St = splitNode cfg result St := by
  rw [Returns, not_or] at h
  rw [generateDecisionTree, if_neg h.1, if_neg h.2]

/-- A turn in which `generate_decision_tree` returns early. -/
theorem solve_of_returns (q : List (List Nat)) (h : Returns cfg s.level St) :
    solve cfg (s, St :: q) () = some (s.count, q) := by
  simp only [solve, step, visit, generate_of_returns s.result h, List.append_nil]

/-- A turn in which the node is split. -/
theorem solve_of_not_returns (q : List (List Nat)) (h : ¬Returns cfg s.level St) :
    solve cfg (s, St :: q) () =
      some ({ s with result := s.result ++ [cfg.partitionId s.result St] }.count,
        q ++ [partL cfg (cfg.partitionId s.result St) St,
          partH cfg (cfg.partitionId s.result St) St,
          partU cfg (cfg.partitionId s.result St) St]) := by
  simp only [solve, step, visit, generate_of_not_returns s.result h, splitNode]

theorem cnt_le_of_reachable (h : Reachable (solve cfg) (s, q) (s', q')) : s.cnt ≤ s'.cnt := by
  apply h.invariant (P := fun w => s.cnt ≤ w.1.cnt) (le_refl _)
  intro w u w' hw hstep
  obtain ⟨s₁, q₁⟩ := w
  cases q₁ with
  | nil => cases hstep
  | cons St q₁ =>
      obtain rfl := Option.some.inj hstep
      have hcnt : (visit cfg s₁ St).1.cnt = s₁.cnt + 1 := cnt_count _
      show s.cnt ≤ (visit cfg s₁ St).1.cnt
      rw [hcnt]
      exact hw.trans (Nat.le_succ _)

/-- Before the last turn there is one more to count. -/
theorem cnt_lt_of_ends (h : Reachable (solve cfg) (s, St :: q) (s', [])) : s.cnt < s'.cnt := by
  obtain ⟨us, hrun⟩ := h
  cases us with
  | nil => cases hrun
  | cons u us =>
      have hcnt : (visit cfg s St).1.cnt = s.cnt + 1 := cnt_count _
      have hrest : Reachable (solve cfg) _ (s', []) := ⟨us, hrun⟩
      have hle : (visit cfg s St).1.cnt ≤ s'.cnt := cnt_le_of_reachable hrest
      omega

end Serial

/-! ### What a segment does -/

theorem errKey_inj {i j : Nat} : errKey i = errKey j ↔ i = j :=
  (List.append_right_inj _).trans toStr_injective.eq_iff

section Segments

variable {D : Type} [Zero D] [Add D] [Sub D] [Mul D] [Div D] [LT D] [DecidableLT D] [Inhabited D]
  {n m : Nat} {task : Task D} {rows : RowMaps n task.itemSz} {getServer : Str → Fin m}
  {lib : Libs D} {servers : Servers m D} {log : List (Fin n × SrvCall m D)} {s : Vars}
  {St : List Nat} {q : List (List Nat)}

/-- The servers have `DBL_MAX` for the items that were chosen. -/
def Marked (task : Task D) (getServer : Str → Fin m) (servers : Servers m D)
    (result : List Nat) : Prop :=
  ∀ i < task.itemSz, i ∈ result → servers.value getServer (errKey i) = some task.dblMax

/-- The servers have what the serial class has in `err`. -/
def Shared (task : Task D) (getServer : Str → Fin m) (servers : Servers m D)
    (result St : List Nat) : Prop :=
  ∀ i < task.itemSz, servers.value getServer (errKey i) = some (errAt task result St i)

omit [LT D] [DecidableLT D] [Inhabited D] in
theorem Shared.marked {result : List Nat} (h : Shared task getServer servers result St) :
    Marked task getServer servers result := by
  intro i hi hin
  rw [h i hi, errAt, if_pos hin]

/-- A node that is not split leaves the servers as they are. -/
theorem after_return (hreturns : Returns task.serial s.level St)
    (hlogs : (⟨fun _ => .node s (St :: q), servers⟩ : Segments.Config n (Loc D) _).Logs
      (parallel task rows getServer) log) (hmarked : Marked task getServer servers s.result) :
    Marked task getServer (Spmd.replay (Servers.handle lib) servers (log.map Prod.snd))
      s.result := by
  intro i hi hin
  rw [← hmarked i hi hin]
  apply Servers.value_of_writes_ne
  intro c hc
  obtain ⟨e, he, rfl⟩ := List.mem_map.mp hc
  have hmem : e.2 ∈ calls task rows getServer e.1 (.node s (St :: q)) := hlogs.mem he
  rw [calls, if_pos hreturns] at hmem
  cases hmem

/-- The errors that the workers write are those of all items but the chosen ones. -/
theorem after_errors (hsplit : ¬Returns task.serial s.level St)
    (hlogs : (⟨fun _ => .node s (St :: q), servers⟩ : Segments.Config n (Loc D) _).Logs
      (parallel task rows getServer) log) (hmarked : Marked task getServer servers s.result) :
    Shared task getServer (Spmd.replay (Servers.handle lib) servers (log.map Prod.snd))
      s.result St := by
  have hcalls : ∀ w, calls task rows getServer w (.node s (St :: q)) =
      ((rows.rowMap w).filter fun oi => oi ∉ s.result).map fun oi =>
        .paracelWrite getServer (errKey oi) (errOf task St oi) := fun w => if_neg hsplit
  have hmem : ∀ c ∈ log.map Prod.snd, ∃ oi, oi ∉ s.result ∧
      c = .paracelWrite getServer (errKey oi) (errOf task St oi) := by
    intro c hc
    obtain ⟨e, he, rfl⟩ := List.mem_map.mp hc
    have hin : e.2 ∈ calls task rows getServer e.1 (.node s (St :: q)) := hlogs.mem he
    rw [hcalls] at hin
    obtain ⟨oi, hoi, hc⟩ := List.mem_map.mp hin
    exact ⟨oi, of_decide_eq_true (List.mem_filter.mp hoi).2, hc.symm⟩
  intro i hi
  by_cases hin : i ∈ s.result
  · rw [errAt, if_pos hin, ← hmarked i hi hin]
    apply Servers.value_of_writes_ne
    intro c hc
    obtain ⟨oi, hoi, rfl⟩ := hmem c hc
    exact ⟨_, _, rfl, fun hkey => hoi (errKey_inj.mp hkey ▸ hin)⟩
  · rw [errAt, if_neg hin]
    apply Servers.value_of_write
    · obtain ⟨w, hw⟩ := rows.cover i hi
      have hown : .paracelWrite getServer (errKey i) (errOf task St i) ∈ Spmd.callsOf w log := by
        rw [hlogs w]
        show _ ∈ calls task rows getServer w (.node s (St :: q))
        rw [hcalls]
        exact List.mem_map.mpr ⟨i, List.mem_filter.mpr ⟨hw, decide_eq_true hin⟩, rfl⟩
      exact List.mem_map.mpr ⟨_, Segments.mem_of_mem_callsOf hown, rfl⟩
    · intro c hc
      obtain ⟨oi, -, rfl⟩ := hmem c hc
      exact ⟨_, _, rfl, fun hkey => by rw [errKey_inj.mp hkey]⟩

variable (lib) in
/-- Every worker reads what the serial class has in `err`. -/
theorem after_reads (hshared : Shared task getServer servers s.result St)
    (hlogs : (⟨fun _ => .read s St q, servers⟩ : Segments.Config n (Loc D) _).Logs
      (parallel task rows getServer) log) :
    Spmd.replay (Servers.handle lib) servers (log.map Prod.snd) = servers ∧
      ∀ w, (Segments.repliesOf (Servers.handle lib) w servers log).map readVal =
        serialErr task s.result St := by
  obtain ⟨hafter, hreplies⟩ := Servers.of_reads lib hlogs (by
    intro w c hc
    obtain ⟨i, -, rfl⟩ := List.mem_map.mp hc
    exact ⟨errKey i, rfl⟩)
  refine ⟨hafter, fun w => ?_⟩
  rw [hreplies w, List.map_map]
  refine (List.map_map ..).trans (List.map_congr_left fun i hi => ?_)
  have hread : readVal (Servers.handle lib servers (.paracelRead getServer (errKey i))).1 =
      errAt task s.result St i := by
    rw [Servers.readVal_read, hshared i (List.mem_range.mp hi), Option.getD_some]
  exact hread

variable (lib) in
/-- The error of the chosen item is overwritten. -/
theorem after_choice (hn : 0 < n) {err : List D} {result : List Nat}
    (hlogs : (⟨fun _ => .split s St q err, servers⟩ : Segments.Config n (Loc D) _).Logs
      (parallel task rows getServer) log) (hmarked : Marked task getServer servers result) :
    Marked task getServer (Spmd.replay (Servers.handle lib) servers (log.map Prod.snd))
      (result ++ [minElement err]) := by
  have hmem : ∀ c ∈ log.map Prod.snd,
      c = .paracelWrite getServer (errKey (minElement err)) task.dblMax := by
    intro c hc
    obtain ⟨e, he, rfl⟩ := List.mem_map.mp hc
    exact List.mem_singleton.mp (hlogs.mem he)
  intro i hi hin
  by_cases hchosen : i = minElement err
  · apply Servers.value_of_write
    · have hown : .paracelWrite getServer (errKey i) task.dblMax ∈
          Spmd.callsOf (⟨0, hn⟩ : Fin n) log := by
        rw [hlogs, hchosen]
        exact List.mem_singleton_self _
      exact List.mem_map.mpr ⟨_, Segments.mem_of_mem_callsOf hown, rfl⟩
    · intro c hc
      exact ⟨_, _, hmem c hc, fun _ => rfl⟩
  · have hold : i ∈ result := by
      rcases List.mem_append.mp hin with hold | hnew
      · exact hold
      · exact absurd (List.mem_singleton.mp hnew) hchosen
    rw [← hmarked i hi hold]
    apply Servers.value_of_writes_ne
    intro c hc
    exact ⟨_, _, hmem c hc, fun hkey => hchosen (errKey_inj.mp hkey).symm⟩

end Segments

/-! ### Runs -/

/-- Where all workers are at the start of a segment, at a place that the serial loop comes to, and
    what the servers then hold. -/
inductive Stage {D : Type} [Zero D] [Add D] [Sub D] [Mul D] [Div D] [LT D] [DecidableLT D]
    {n m : Nat} (task : Task D) (getServer : Str → Fin m) :
    Segments.Config n (Loc D) (Servers m D) → Prop where
  | node (servers) (s : Vars) (q : List (List Nat))
      (hserial : Reachable (solve task.serial) ({}, [task.serial.users]) (s, q))
      (hmarked : Marked task getServer servers s.result) :
      Stage task getServer ⟨fun _ => .node s q, servers⟩
  | read (servers) (s : Vars) (St : List Nat) (q : List (List Nat))
      (hserial : Reachable (solve task.serial) ({}, [task.serial.users]) (s, St :: q))
      (hsplit : ¬Returns task.serial s.level St)
      (hshared : Shared task getServer servers s.result St) :
      Stage task getServer ⟨fun _ => .read s St q, servers⟩
  | split (servers) (s : Vars) (St : List Nat) (q : List (List Nat))
      (hserial : Reachable (solve task.serial) ({}, [task.serial.users]) (s, St :: q))
      (hsplit : ¬Returns task.serial s.level St)
      (hshared : Shared task getServer servers s.result St) :
      Stage task getServer ⟨fun _ => .split s St q (serialErr task s.result St), servers⟩

section Runs

variable {D : Type} [Zero D] [Add D] [Sub D] [Mul D] [Div D] [LT D] [DecidableLT D] [Inhabited D]
  {n m : Nat} {task : Task D} {rows : RowMaps n task.itemSz} {getServer : Str → Fin m}
  {lib : Libs D} {servers : Servers m D} {cfg cfg' : Segments.Config n (Loc D) (Servers m D)}

/-- The workers and the servers before `solve`. -/
def atRoot (n : Nat) (task : Task D) (servers : Servers m D) :
    Segments.Config n (Loc D) (Servers m D) :=
  ⟨fun _ => .node {} [task.serial.users], servers⟩

/-- One segment leads from a stage to the next. -/
theorem Stage.leads (hn : 0 < n) (h : Stage task getServer cfg)
    (hleads : Segments.Leads (parallel task rows getServer) (Servers.handle lib) cfg cfg') :
    Stage task getServer cfg' := by
  obtain ⟨log, c, hseg⟩ := hleads
  have hlogs := hseg.logs
  rw [hseg.eq]
  cases h with
  | node servers s q hserial hmarked =>
      cases q with
      | nil =>
          have hnone := hseg.offers ⟨0, hn⟩
          cases hnone
      | cons St q =>
          by_cases hreturns : Returns task.serial s.level St
          · simp only [parallel, next, if_pos hreturns]
            have hturn := hserial.tail (solve_of_returns q hreturns)
            apply Stage.node _ _ _ hturn
            rw [result_count]
            exact after_return hreturns hlogs hmarked
          · simp only [parallel, next, if_neg hreturns]
            exact .read _ _ _ _ hserial hreturns (after_errors hreturns hlogs hmarked)
  | read servers s St q hserial hsplit hshared =>
      obtain ⟨hafter, herr⟩ := after_reads lib hshared hlogs
      simp only [parallel, next, herr, Segments.Config.after, hafter]
      exact .split _ _ _ _ hserial hsplit hshared
  | split servers s St q hserial hsplit hshared =>
      have hmarked := after_choice lib hn hlogs hshared.marked
      have hturn := hserial.tail (solve_of_not_returns q hsplit)
      apply Stage.node _ _ _ hturn
      rw [result_count]
      exact hmarked

/-- Every segment that a run comes to starts from a stage. -/
theorem stage_of_visits (hn : 0 < n)
    (h : Segments.Visits (parallel task rows getServer) (Servers.handle lib)
      (atRoot n task servers) cfg) : Stage task getServer cfg := by
  have hmarked : Marked task getServer servers ({} : Vars).result :=
    fun i _ hin => absurd hin List.not_mem_nil
  exact h.invariant (.node servers {} [task.serial.users] (.refl _) hmarked)
    fun _ _ hstage hleads => hstage.leads hn hleads

/-- Every worker finds the errors that it reads. -/
theorem answered (hn : 0 < n) : Segments.Answered readOk (parallel task rows getServer)
    (Servers.handle lib) (atRoot n task servers) := by
  intro cfg log hvisits hlogs
  apply Servers.replies_ok_of_present lib getServer hlogs
  intro w c hc
  have hmem : c ∈ calls task rows getServer w (cfg.loc w) := hc
  cases stage_of_visits hn hvisits with
  | node servers s q =>
      cases q with
      | nil => cases hmem
      | cons St q =>
          by_cases hreturns : Returns task.serial s.level St
          · rw [calls, if_pos hreturns] at hmem
            cases hmem
          · rw [calls, if_neg hreturns] at hmem
            obtain ⟨oi, -, rfl⟩ := List.mem_map.mp hmem
            exact ⟨.write _ _, .inl nofun⟩
  | read servers s St q hserial hsplit hshared =>
      obtain ⟨i, hi, rfl⟩ := List.mem_map.mp hmem
      have hvalue := hshared i (List.mem_range.mp hi)
      exact ⟨.quiet _ rfl, .inr ⟨errKey i, rfl, Option.isSome_of_eq_some hvalue⟩⟩
  | split servers s St q =>
      rw [List.mem_singleton.mp hmem]
      exact ⟨.write _ _, .inl nofun⟩

omit [Inhabited D] in
theorem Stage.head (h : Stage task getServer cfg) (w : Fin n) :
    Reachable (solve task.serial) ({}, [task.serial.users]) (cfg.loc w).head := by
  cases h with
  | node _ s q hserial => exact hserial
  | read _ s St q hserial => exact hserial
  | split _ s St q hserial => exact hserial

/-- All workers leave the loop, or all enter a barrier. -/
theorem Stage.agree {log : List (Fin n × SrvCall m D)} (h : Stage task getServer cfg) {sem} :
    (∀ w, cfg.offer (parallel task rows getServer) sem log w = none) ∨
      ∃ c, (∀ w, cfg.offer (parallel task rows getServer) sem log w = some (c w)) ∧
        (parallel task rows getServer).Matched c := by
  cases h with
  | node _ s q =>
      cases q with
      | nil => exact .inl fun _ => rfl
      | cons St q => exact .inr ⟨fun _ => (), fun _ => rfl, fun _ _ => rfl⟩
  | read => exact .inr ⟨fun _ => (), fun _ => rfl, fun _ _ => rfl⟩
  | split => exact .inr ⟨fun _ => (), fun _ => rfl, fun _ _ => rfl⟩

/-- How many segments are left, at most, where the serial loop takes `total` turns. -/
def level (total : Nat) : Loc D → Nat
  | .node s _ => 3 * (total - s.cnt) + 2
  | .read s _ _ => 3 * (total - s.cnt) + 1
  | .split s _ _ _ => 3 * (total - s.cnt)

theorem Stage.level_lt (hn : 0 < n) {last : Vars}
    (hlast : Reachable (solve task.serial) ({}, [task.serial.users]) (last, []))
    (h : Stage task getServer cfg)
    (hleads : Segments.Leads (parallel task rows getServer) (Servers.handle lib) cfg cfg') :
    level last.cnt (cfg'.loc ⟨0, hn⟩) < level last.cnt (cfg.loc ⟨0, hn⟩) := by
  obtain ⟨log, c, hseg⟩ := hleads
  have hturns : ∀ {s St q}, Reachable (solve task.serial) ({}, [task.serial.users]) (s, St :: q) →
      s.cnt < last.cnt := fun hserial =>
    cnt_lt_of_ends (reachable_of_ends hlast rfl hserial)
  rw [hseg.loc]
  cases h with
  | node servers s q hserial hmarked =>
      cases q with
      | nil =>
          have hnone := hseg.offers ⟨0, hn⟩
          cases hnone
      | cons St q =>
          have hlt := hturns hserial
          by_cases hreturns : Returns task.serial s.level St
          · simp only [parallel, next, if_pos hreturns, level, cnt_count]
            omega
          · simp only [parallel, next, if_neg hreturns, level]
            omega
  | read servers s St q hserial hsplit hshared =>
      simp only [parallel, next, level]
      omega
  | split servers s St q hserial hsplit hshared =>
      have hlt := hturns hserial
      simp only [parallel, next, level, cnt_count]
      omega

variable {st : Segments.State n (Loc D) (SrvCall m D) (Option (Reply D)) (Servers m D)}

/-- In every interleaving each worker is always at a turn of the serial loop, with the same
    variables and the same queue, so all have chosen the same items; and if the serial loop ends,
    every run can be continued until all workers have left theirs with what the serial one has
    then. -/
theorem workers_follow_serial (hn : 0 < n)
    (h : Reachable (Segments.checked readOk (parallel task rows getServer) (Servers.handle lib))
      (Segments.start (parallel task rows getServer) (atRoot n task servers)) st) :
    (∀ w, Reachable (solve task.serial) ({}, [task.serial.users]) (st.loc w).base.head) ∧
    ∀ last, Reachable (solve task.serial) ({}, [task.serial.users]) (last, []) →
      ∃ t, Reachable (Segments.checked readOk (parallel task rows getServer)
          (Servers.handle lib)) st t ∧
        ∀ w, (t.loc w).base = .node last [] ∧ (t.loc w).todo = [] := by
  constructor
  · intro w
    obtain ⟨cfg, log, hvisits, hwithin⟩ :=
      Segments.exists_within (Segments.reachable_of_checked h)
    rw [hwithin.base]
    exact (stage_of_visits hn hvisits).head w
  · intro last hlast
    obtain ⟨t, ht, hhalted⟩ := (answered hn).exists_halted
      (fun loc => level last.cnt (loc ⟨0, hn⟩))
      (fun cfg log hvisits _ => (stage_of_visits hn hvisits).agree)
      (fun cfg cfg' hvisits hleads => (stage_of_visits hn hvisits).level_lt hn hlast hleads) h
    obtain ⟨cfg, log, hvisits, hwithin⟩ :=
      Segments.exists_within (Segments.reachable_of_checked (h.trans ht))
    have hstage := stage_of_visits hn hvisits
    refine ⟨t, ht, fun w => ⟨?_, (hhalted w).1⟩⟩
    have hmeet := (hhalted w).2
    rw [hwithin.base] at hmeet ⊢
    have hhead := reachable_of_ends hlast rfl (hstage.head w)
    cases hstage with
    | node servers s q hserial hmarked =>
        cases q with
        | nil =>
            obtain ⟨us, hrun⟩ := hhead
            cases us with
            | nil =>
                cases hrun
                rfl
            | cons u us => cases hrun
        | cons St q => cases hmeet
    | read => cases hmeet
    | split => cases hmeet

end Runs

/-! ### Two workers -/

/-- Two users have rated two items, each a different one with 5. -/
def twoItems : Task Int where
  bigraphU := ⟨[[(0, 5), (1, 1)], [(0, 1), (1, 5)]]⟩
  bigraphI := ⟨[[(0, 5), (1, 1)], [(0, 1), (1, 5)]]⟩
  height := 1
  withDepth := true
  withAlpha := false
  alpha := 0
  ofRating := fun r => r.num
  ofCount := fun c => c.toNat
  dblMax := 1000000

/-- Each worker has loaded one of the items. -/
def oneEach : RowMaps 2 twoItems.itemSz where
  rowMap := fun w => [w.val]
  lt := by decide
  cover := by decide

/-- They share one server. -/
abbrev twoWorkers : Segments.Program 2 (Loc Int) (SrvCall 1 Int) (Option (Reply Int)) Unit :=
  parallel twoItems oneEach fun _ => 0

/-- A library without functions of any use. -/
def noLib : Libs Int :=
  { update := fun _ a _ => a, filter := fun _ _ _ => true }

theorem workers_follow_serial_two : ∃ s t,
    Reachable (Segments.checked readOk twoWorkers (Servers.handle noLib))
      (Segments.start twoWorkers (atRoot 2 twoItems fun _ => {})) t ∧
    s.result = [0] ∧ ∀ w, (t.loc w).base = .node s [] := by
  have hserial : ∃ s, Reachable (solve twoItems.serial) ({}, [twoItems.serial.users]) (s, []) ∧
      s.result = [0] := ⟨_, ⟨List.replicate 4 (), rfl⟩, by decide⟩
  obtain ⟨s, hs, hresult⟩ := hserial
  have hstart : Reachable (Segments.checked readOk twoWorkers (Servers.handle noLib))
      (Segments.start twoWorkers (atRoot 2 twoItems fun _ => {})) _ := .refl _
  obtain ⟨-, hends⟩ := workers_follow_serial (by decide) hstart
  obtain ⟨t, ht, hbase⟩ := hends s hs
  exact ⟨s, t, ht, hresult, fun w => (hbase w).1⟩

end Paracel.DecisionTree
