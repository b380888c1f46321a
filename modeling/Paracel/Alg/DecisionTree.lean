import Mathlib.Data.Nat.Log
import Mathlib.Data.Rat.Defs
import Mathlib.Tactic.Ring
import Paracel.Misc.Worklist

/-!
# The recommendation decision tree

`recommendation_decision_tree` and `recommendation_decision_tree_serial`
(`alg/decision_tree_rec/dtr.hpp` and `dtr_serial.hpp`) split the set of all users
by their ratings of one item, then the parts by another one, and so on, with a
queue. The depth of a node is not kept: `solve` counts the nodes it has taken from
the queue, and raises `level` when there were as many of them as a full tree has.
Both classes do this in the same way; the parallel one synchronises its workers
in between and has them share the errors of the items on the servers.
-/

namespace Paracel.DecisionTree

open StepSystem Worklist

/-- `bigraph_continuous`: for each vertex the bag of its neighbours, with their ratings. -/
structure BigraphContinuous where
  adj : List (List (Nat × ℚ))

/-- `v`. -/
def BigraphContinuous.v (g : BigraphContinuous) : Nat := g.adj.length

/-- `adjacent`. -/
def BigraphContinuous.adjacent (g : BigraphContinuous) (v : Nat) : List (Nat × ℚ) :=
  g.adj.getD v []

/-- The members that `solve` only reads. `partitionId` is the item with the least error, for the
    items that were chosen before and the users of the node; the errors are sums of `double`s
    and may be any here. -/
structure Config where
  bigraphU : BigraphContinuous
  height : Int
  withDepth : Bool
  withAlpha : Bool
  alpha : UInt64
  partitionId : List Nat → List Nat → Nat

/-- `users`, as the constructor fills it. -/
def Config.users (cfg : Config) : List Nat := List.range cfg.bigraphU.v

/-- What changes in `solve`, but for the queue: members and locals. -/
structure Vars where
  level : Nat := 0
  result : List Nat := []
  cnt : Nat := 0
  lastCnt : Nat := 0

/-- `accum`: the sum is kept in an `int`, the type of the literal 0, and is converted to `desc_t`
    and back for each user. -/
def accum (cfg : Config) (St : List Nat) : UInt64 :=
  (St.foldl (fun (init : Int32) v =>
    (init.toInt64.toUInt64 + UInt64.ofNat (cfg.bigraphU.adjacent v).length).toUInt32.toInt32)
    0).toInt64.toUInt64

/-- The rating of the item by `u`, if there is one. -/
def rating (cfg : Config) (partitionId u : Nat) : Option ℚ :=
  ((cfg.bigraphU.adjacent u).find? fun pr => pr.1 = partitionId).map Prod.snd

/-- The part of the users that are in `L`. -/
def partL (cfg : Config) (partitionId : Nat) (St : List Nat) : List Nat :=
  St.filter fun u => (rating cfg partitionId u).any fun r => 4 ≤ r

/-- The part of the users that are in `H`. -/
def partH (cfg : Config) (partitionId : Nat) (St : List Nat) : List Nat :=
  St.filter fun u => (rating cfg partitionId u).any fun r => ¬4 ≤ r

/-- The part of the users that are in `U`. -/
def partU (cfg : Config) (partitionId : Nat) (St : List Nat) : List Nat :=
  St.filter fun u => (rating cfg partitionId u).isNone

/-- `generate_decision_tree` behind its two tests: the `result` and the sets that are pushed. -/
def splitNode (cfg : Config) (result : List Nat) (St : List Nat) : List Nat × List (List Nat) :=
  let partitionId := cfg.partitionId result St
  (result ++ [partitionId],
    [partL cfg partitionId St, partH cfg partitionId St, partU cfg partitionId St])

/-- `generate_decision_tree`. -/
def generateDecisionTree (cfg : Config) (level : Nat) (result : List Nat) (St : List Nat) :
    List Nat × List (List Nat) :=
  if cfg.withDepth ∧ (level : Int) = cfg.height then (result, [])
  else if cfg.withAlpha ∧ accum cfg St < cfg.alpha then (result, [])
  else splitNode cfg result St

/-- The end of an iteration of `solve`. -/
def Vars.count (s : Vars) : Vars :=
  if s.cnt - s.lastCnt = 0 ∨ s.cnt - s.lastCnt = 3 ^ s.level then
    { s with lastCnt := s.cnt, level := s.level + 1, cnt := s.cnt + 1 }
  else { s with cnt := s.cnt + 1 }

/-- An iteration of `solve` with the set from the front of the queue. -/
def visit (cfg : Config) (s : Vars) (St : List Nat) : Vars × List (List Nat) :=
  let generated := generateDecisionTree cfg s.level s.result St
  ({ s with result := generated.1 }.count, generated.2)

/-- The loop of `solve`. -/
def solve (cfg : Config) : Vars × List (List Nat) → Unit → Option (Vars × List (List Nat)) :=
  step (visit cfg)

/-- `solve` takes a node of this depth from the queue when the variables are `s`. -/
def Takes (cfg : Config) (s : Vars) (St : List Nat) (depth : Nat) : Prop :=
  ∃ q, Reachable (step (deep (visit cfg))) ({}, [(cfg.users, 0)]) (s, (St, depth) :: q)

/-- In every iteration `level` is the depth of the node, and no node is split at depth `height`
    or below. -/
def HeightBounded (cfg : Config) : Prop :=
  ∀ s St depth, Takes cfg s St depth → s.level = depth ∧
    ((generateDecisionTree cfg s.level s.result St).2 ≠ [] → (depth : Int) < cfg.height)

/-- The users of a node have at least `alpha` ratings. -/
def Large (cfg : Config) (St : List Nat) : Prop := cfg.alpha ≤ accum cfg St

instance (cfg : Config) (St : List Nat) : Decidable (Large cfg St) :=
  inferInstanceAs (Decidable (cfg.alpha ≤ accum cfg St))

/-- Splits a node that is large. -/
def splitLarge (cfg : Config) (result : List Nat) (St : List Nat) : List Nat × List (List Nat) :=
  if Large cfg St then splitNode cfg result St else (result, [])

/-- The sets at one depth of the tree in which all large nodes are split and no others. -/
def treeLayer (cfg : Config) (d : Nat) : List (List Nat) :=
  (layer (splitLarge cfg) [] [cfg.users] d).2

variable {cfg : Config}

/-! ### The level counts the nodes -/

/-- `level` is the depth that a node has in a full tree when `cnt` nodes are before it. -/
structure Counted (s : Vars) : Prop where
  lower : 3 ^ s.level ≤ 2 * s.cnt + 1
  upper : 2 * s.cnt + 1 < 3 ^ (s.level + 1)
  last : 0 < s.level → 2 * s.lastCnt + 3 = 3 ^ s.level

theorem Counted.count {s : Vars} (h : Counted s) : Counted s.count := by
  have hpow := Nat.pow_succ 3 s.level
  have hpow' := Nat.pow_succ 3 (s.level + 1)
  have hlower := h.lower
  have hupper := h.upper
  rw [Vars.count]
  rcases Nat.eq_zero_or_pos s.level with hzero | hpos
  · rw [hzero] at hlower hupper
    have hcnt : s.cnt = 0 := by omega
    rw [if_pos (.inl (by omega))]
    refine ⟨?_, ?_, ?_⟩ <;> simp [hzero, hcnt]
  · have hlast := h.last hpos
    split
    · refine ⟨?_, ?_, fun _ => ?_⟩ <;> simp only <;> omega
    · refine ⟨?_, ?_, fun _ => ?_⟩ <;> simp only <;> omega

theorem Counted.level_eq_log {s : Vars} (h : Counted s) : s.level = Nat.log 3 (2 * s.cnt + 1) :=
  (Nat.log_eq_of_pow_le_of_lt_pow h.lower h.upper).symm

/-- In every iteration `level` depends on the number of iterations before it alone. -/
theorem counted_of_reachable {s : Vars} {q : List (List Nat)}
    (h : Reachable (solve cfg) ({}, [cfg.users]) (s, q)) : Counted s := by
  refine h.invariant (P := fun w => Counted w.1) ⟨by simp, by simp, by simp⟩ ?_
  intro ⟨s, q⟩ _ w' hs hstep
  cases q with
  | nil => cases hstep
  | cons St q =>
      obtain rfl := Option.some.inj hstep
      have hs' : Counted { s with result := (generateDecisionTree cfg s.level s.result St).1 } :=
        ⟨hs.lower, hs.upper, hs.last⟩
      exact hs'.count

/-! ### Layers -/

section Layers

variable {s : Vars} {d : Nat} {l pre suf : List (List Nat)}

/-- The variables before the nodes at depth `d` are taken, and the sets of these nodes. -/
def solveLayer (cfg : Config) (d : Nat) : Vars × List (List Nat) :=
  layer (visit cfg) {} [cfg.users] d

theorem takes_iff {St : List Nat} :
    Takes cfg s St d ↔ ∃ pre suf, (solveLayer cfg d).2 = pre ++ St :: suf ∧
      s = (pass (visit cfg) (solveLayer cfg d).1 pre).1 :=
  exists_reachable_iff (q := [cfg.users])

theorem counted_pass (hsplit : (solveLayer cfg d).2 = pre ++ suf) :
    Counted (pass (visit cfg) (solveLayer cfg d).1 pre).1 := by
  obtain ⟨q, h⟩ := reachable_pass hsplit
  exact counted_of_reachable h

theorem cnt_count (s : Vars) : s.count.cnt = s.cnt + 1 := by
  rw [Vars.count]
  split <;> rfl

theorem result_count (s : Vars) : s.count.result = s.result := by
  rw [Vars.count]
  split <;> rfl

theorem cnt_pass (s : Vars) (l : List (List Nat)) :
    (pass (visit cfg) s l).1.cnt = s.cnt + l.length := by
  induction l using List.reverseRecOn with
  | nil => rfl
  | append_singleton l St ih =>
      rw [pass_concat, List.length_append, ← Nat.add_assoc, ← ih]
      exact cnt_count _

theorem length_generate_le (level : Nat) (result St : List Nat) :
    (generateDecisionTree cfg level result St).2.length ≤ 3 := by
  rw [generateDecisionTree]
  split
  · exact Nat.zero_le _
  · split
    · exact Nat.zero_le _
    · exact le_refl _

theorem solveLayer_succ (d : Nat) :
    solveLayer cfg (d + 1) = pass (visit cfg) (solveLayer cfg d).1 (solveLayer cfg d).2 := rfl

theorem cnt_solveLayer_succ (d : Nat) :
    (solveLayer cfg (d + 1)).1.cnt = (solveLayer cfg d).1.cnt + (solveLayer cfg d).2.length :=
  cnt_pass _ _

/-- No layer has more nodes than in a full tree. -/
theorem length_solveLayer_le (cfg : Config) (d : Nat) : (solveLayer cfg d).2.length ≤ 3 ^ d := by
  induction d with
  | zero => exact le_refl 1
  | succ d ih =>
      have hpushed : ∀ s St, (visit cfg s St).2.length ≤ 3 := fun s St =>
        length_generate_le s.level s.result St
      have hpass := length_pass_le hpushed (solveLayer cfg d).1 (solveLayer cfg d).2
      rw [← solveLayer_succ] at hpass
      rw [Nat.pow_succ]
      omega

theorem cnt_solveLayer_le (cfg : Config) (d : Nat) : 2 * (solveLayer cfg d).1.cnt + 1 ≤ 3 ^ d := by
  induction d with
  | zero => exact le_refl 1
  | succ d ih =>
      have hlength := length_solveLayer_le cfg d
      rw [cnt_solveLayer_succ, Nat.pow_succ]
      omega

/-- Above depth `d` there are as many nodes as in a full tree. -/
def Full (cfg : Config) (d : Nat) : Prop := 2 * (solveLayer cfg d).1.cnt + 1 = 3 ^ d

theorem full_succ_iff : Full cfg (d + 1) ↔ Full cfg d ∧ (solveLayer cfg d).2.length = 3 ^ d := by
  have hcnt := cnt_solveLayer_le cfg d
  have hlength := length_solveLayer_le cfg d
  rw [Full, Full, cnt_solveLayer_succ, Nat.pow_succ]
  omega

/-- At depth `d` the level is the depth. -/
def OnLevel (cfg : Config) (d : Nat) : Prop :=
  ∀ pre St suf, (solveLayer cfg d).2 = pre ++ St :: suf →
    (pass (visit cfg) (solveLayer cfg d).1 pre).1.level = d

theorem Full.onLevel (h : Full cfg d) : OnLevel cfg d := by
  intro pre St suf hsplit
  have hcounted := counted_pass hsplit
  have hlength := length_solveLayer_le cfg d
  rw [hsplit, List.length_append, List.length_cons] at hlength
  have hcnt : (pass (visit cfg) (solveLayer cfg d).1 pre).1.cnt = _ := cnt_pass _ _
  have hpow := Nat.pow_succ 3 d
  rw [Full] at h
  rw [hcounted.level_eq_log]
  exact Nat.log_eq_of_pow_le_of_lt_pow (by omega) (by omega)

theorem OnLevel.full (h : OnLevel cfg d) (hne : (solveLayer cfg d).2 ≠ []) : Full cfg d := by
  obtain ⟨St, suf, hsplit⟩ := List.exists_cons_of_ne_nil hne
  have hlower := (counted_pass (show (solveLayer cfg d).2 = [] ++ St :: suf from hsplit)).lower
  rw [h [] St suf hsplit] at hlower
  exact le_antisymm (cnt_solveLayer_le cfg d) hlower

end Layers

/-! ### The tree of the large nodes -/

section Tree

variable {s : Vars} {d : Nat} {result St : List Nat}

theorem generate_of_height (hdepth : cfg.withDepth = true) (h : (s.level : Int) = cfg.height) :
    generateDecisionTree cfg s.level result St = (result, []) :=
  if_pos ⟨hdepth, h⟩

theorem generate_of_ne_height (halpha : cfg.withAlpha = true) (h : (s.level : Int) ≠ cfg.height) :
    generateDecisionTree cfg s.level result St = splitLarge cfg result St := by
  rw [generateDecisionTree, if_neg fun hstop => h hstop.2, splitLarge]
  by_cases hlarge : Large cfg St
  · rw [if_pos hlarge, if_neg fun hsmall => UInt64.not_lt.mpr hlarge hsmall.2]
  · rw [if_neg hlarge, if_pos ⟨halpha, UInt64.not_le.mp hlarge⟩]

theorem length_pass_splitLarge (l : List (List Nat)) :
    (pass (splitLarge cfg) result l).2.length = 3 * l.countP fun St => Large cfg St := by
  induction l using List.reverseRecOn with
  | nil => rfl
  | append_singleton l St ih =>
      rw [pass_concat, List.length_append, ih, List.countP_append, Nat.mul_add]
      by_cases hlarge : Large cfg St
      · simp [splitLarge, splitNode, hlarge]
      · simp [splitLarge, hlarge]

theorem length_treeLayer_succ (d : Nat) :
    (treeLayer cfg (d + 1)).length = 3 * (treeLayer cfg d).countP fun St => Large cfg St :=
  length_pass_splitLarge _

/-- So far `solve` has made the tree of the large nodes. -/
structure Same (cfg : Config) (d : Nat) : Prop where
  result : (solveLayer cfg d).1.result = (layer (splitLarge cfg) [] [cfg.users] d).1
  sets : (solveLayer cfg d).2 = treeLayer cfg d

theorem same_zero : Same cfg 0 := ⟨rfl, rfl⟩

theorem Same.succ (halpha : cfg.withAlpha = true) (hlevel : OnLevel cfg d)
    (hne : (d : Int) ≠ cfg.height) (h : Same cfg d) : Same cfg (d + 1) := by
  have hsplits : ∀ pre St suf, (solveLayer cfg d).2 = pre ++ St :: suf →
      splitLarge cfg (pass (visit cfg) (solveLayer cfg d).1 pre).1.result St =
        ((visit cfg (pass (visit cfg) (solveLayer cfg d).1 pre).1 St).1.result,
          (visit cfg (pass (visit cfg) (solveLayer cfg d).1 pre).1 St).2) := by
    intro pre St suf hsplit
    have hd := hlevel pre St suf hsplit
    rw [visit, result_count, generate_of_ne_height halpha (by rw [hd]; exact hne)]
  have hpass := pass_map Vars.result hsplits
  rw [h.result, h.sets] at hpass
  refine ⟨?_, ?_⟩
  · rw [solveLayer_succ, h.sets]
    exact (congrArg Prod.fst hpass).symm
  · rw [solveLayer_succ, h.sets]
    exact (congrArg Prod.snd hpass).symm

/-- At `height` nothing is pushed. -/
theorem solveLayer_height (hdepth : cfg.withDepth = true) (hlevel : OnLevel cfg d)
    (hd : (d : Int) = cfg.height) : (solveLayer cfg (d + 1)).2 = [] := by
  let idle : Unit → List Nat → Unit × List (List Nat) := fun u _ => (u, [])
  have hidle : ∀ pre St suf, (solveLayer cfg d).2 = pre ++ St :: suf →
      idle () St = ((), (visit cfg (pass (visit cfg) (solveLayer cfg d).1 pre).1 St).2) := by
    intro pre St suf hsplit
    have hlevel' := hlevel pre St suf hsplit
    rw [visit, generate_of_height hdepth (by rw [hlevel']; exact hd)]
  have hpass := pass_map (fun _ => ()) hidle
  have hnone := length_pass_le (fun u St => le_refl (idle u St).2.length) () (solveLayer cfg d).2
  rw [hpass, Nat.zero_mul] at hnone
  exact List.eq_nil_of_length_eq_zero (Nat.le_zero.mp hnone)

/-- A layer above one that has a large node has only large nodes. -/
def LargeAbove (cfg : Config) (d : Nat) : Prop :=
  (∃ St ∈ treeLayer cfg (d + 1), Large cfg St) → ∀ St ∈ treeLayer cfg d, Large cfg St

theorem same_of_onLevel (halpha : cfg.withAlpha = true) (hlevel : ∀ d, OnLevel cfg d)
    (hd : (d : Int) ≤ cfg.height) : Same cfg d := by
  induction d with
  | zero => exact same_zero
  | succ d ih => exact (ih (by omega)).succ halpha (hlevel d) (by omega)

theorem largeAbove_of_onLevel (halpha : cfg.withAlpha = true) (hlevel : ∀ d, OnLevel cfg d)
    (hd : (d : Int) + 1 < cfg.height) : LargeAbove cfg d := by
  intro ⟨St, hmem, hlarge⟩
  have hsame := same_of_onLevel (d := d + 1) halpha hlevel (by omega)
  have hnext := same_of_onLevel (d := d + 2) halpha hlevel (by omega)
  have hcount : 0 < (treeLayer cfg (d + 1)).countP fun St => Large cfg St :=
    List.countP_pos_iff.mpr ⟨St, hmem, decide_eq_true hlarge⟩
  have hne : (solveLayer cfg (d + 2)).2 ≠ [] := by
    rw [← List.length_pos_iff, hnext.sets, length_treeLayer_succ]
    omega
  -- the nodes below fill their level only if all nodes here are split
  have hfull := (full_succ_iff.mp ((hlevel (d + 2)).full hne)).2
  rw [hsame.sets, length_treeLayer_succ, Nat.pow_succ] at hfull
  have hlength := length_solveLayer_le cfg d
  rw [(same_of_onLevel halpha hlevel (by omega)).sets] at hlength
  have hle := List.countP_le_length (p := fun St => decide (Large cfg St)) (l := treeLayer cfg d)
  have heq : (treeLayer cfg d).countP (fun St => Large cfg St) = (treeLayer cfg d).length := by
    omega
  intro St' hmem'
  exact of_decide_eq_true (List.countP_eq_length.mp heq St' hmem')

theorem heightBounded_of_largeAbove (hdepth : cfg.withDepth = true) (halpha : cfg.withAlpha = true)
    (hnegative : cfg.height < 0 → ¬Large cfg cfg.users)
    (hall : ∀ d : Nat, (d : Int) + 1 < cfg.height → LargeAbove cfg d) (d : Nat)
    (hne : (solveLayer cfg d).2 ≠ []) :
    Full cfg d ∧ (∀ e ≤ d, Same cfg e) ∧ (0 < d → (d : Int) ≤ cfg.height) := by
  induction d with
  | zero =>
      refine ⟨rfl, fun e he => ?_, fun h => absurd h (Nat.lt_irrefl 0)⟩
      rw [Nat.le_zero.mp he]
      exact same_zero
  | succ d ih =>
      have habove : (solveLayer cfg d).2 ≠ [] := by
        intro hnil
        rw [solveLayer_succ, hnil] at hne
        exact hne rfl
      obtain ⟨hfull, hsame, hheight⟩ := ih habove
      have hstop : (d : Int) ≠ cfg.height := fun heq =>
        hne (solveLayer_height hdepth hfull.onLevel heq)
      have hnext := (hsame d (le_refl d)).succ halpha hfull.onLevel hstop
      obtain ⟨St, hmem, hlarge⟩ : ∃ St ∈ treeLayer cfg d, Large cfg St := by
        have hlength := List.length_pos_iff.mpr hne
        rw [hnext.sets, length_treeLayer_succ] at hlength
        obtain ⟨St, hmem, hlarge⟩ := List.countP_pos_iff.mp (Nat.pos_of_mul_pos_left hlength)
        exact ⟨St, hmem, of_decide_eq_true hlarge⟩
      have hlt : (d : Int) < cfg.height := by
        rcases Nat.eq_zero_or_pos d with rfl | hpos
        · have husers : ¬cfg.height < 0 := fun hneg =>
            hnegative hneg (List.mem_singleton.mp hmem ▸ hlarge)
          omega
        · have hle := hheight hpos
          omega
      refine ⟨full_succ_iff.mpr ⟨hfull, ?_⟩, fun e he => ?_, fun _ => by omega⟩
      · cases d with
        | zero => rfl
        | succ e =>
            have hlarges := hall e (by omega) ⟨St, hmem, hlarge⟩
            rw [(hsame (e + 1) (le_refl _)).sets, length_treeLayer_succ,
              List.countP_eq_length.mpr fun St' hmem' => decide_eq_true (hlarges St' hmem'),
              ← (hsame e (by omega)).sets, (full_succ_iff.mp hfull).2, Nat.pow_succ, Nat.mul_comm]
      · rcases Nat.lt_or_ge d e with hlt | hle
        · rw [show e = d + 1 by omega]
          exact hnext
        · exact hsame e hle

end Tree

/-- In every iteration `level` is the depth of the node, and no node at depth `height` or below
    is split, just when `height` is not negative or the users have fewer than `alpha` ratings,
    and above every large node at a depth under `height` the whole layer is large. -/
theorem heightBounded_iff (cfg : Config) (hdepth : cfg.withDepth = true)
    (halpha : cfg.withAlpha = true) :
    HeightBounded cfg ↔ (cfg.height < 0 → ¬Large cfg cfg.users) ∧
      ∀ d : Nat, (d : Int) + 1 < cfg.height →
        (∃ St ∈ treeLayer cfg (d + 1), Large cfg St) → ∀ St ∈ treeLayer cfg d, Large cfg St := by
  constructor
  · intro hbounded
    have hlevel : ∀ d, OnLevel cfg d := fun d pre St suf hsplit =>
      (hbounded _ St d (takes_iff.mpr ⟨pre, suf, hsplit, rfl⟩)).1
    refine ⟨fun hneg hlarge => ?_, fun d hd => largeAbove_of_onLevel halpha hlevel hd⟩
    have hroot := (hbounded {} cfg.users 0 ⟨[], Reachable.refl _⟩).2
    rw [generate_of_ne_height halpha (by simp only; omega), splitLarge, if_pos hlarge] at hroot
    have hlt := hroot (List.cons_ne_nil _ _)
    omega
  · intro ⟨hnegative, hall⟩ s St d htakes
    obtain ⟨pre, suf, hsplit, rfl⟩ := takes_iff.mp htakes
    obtain ⟨hfull, -, hheight⟩ := heightBounded_of_largeAbove hdepth halpha hnegative hall d
      (by rw [hsplit]; simp)
    have hlevel := hfull.onLevel pre St suf hsplit
    refine ⟨hlevel, fun hpushed => ?_⟩
    have hne : (d : Int) ≠ cfg.height := by
      intro heq
      rw [generate_of_height hdepth (by rw [hlevel]; exact heq)] at hpushed
      exact hpushed rfl
    rcases Nat.eq_zero_or_pos d with rfl | hpos
    · have husers : ¬cfg.height < 0 := by
        intro hneg
        have hroot : St ∈ (solveLayer cfg 0).2 := by rw [hsplit]; simp
        rw [generate_of_ne_height halpha (by rw [hlevel]; exact hne), splitLarge,
          if_neg (List.mem_singleton.mp hroot ▸ hnegative hneg)] at hpushed
        exact hpushed rfl
      omega
    · have hle := hheight hpos
      omega

/-- One user who has rated four items with 5; the items are chosen one after another. -/
def oneUser (height : Int) : Config where
  bigraphU := ⟨[[(0, 5), (1, 5), (2, 5), (3, 5)]]⟩
  height := height
  withDepth := true
  withAlpha := true
  alpha := 1
  partitionId := fun result _ => result.length

/-- At height 2 only the root has to be large. -/
theorem heightBounded_iff_oneUser : HeightBounded (oneUser 2) := by
  refine (heightBounded_iff (oneUser 2) rfl rfl).mpr ⟨by decide, ?_⟩
  intro d hd _
  obtain rfl : d = 0 := by
    have hheight : (oneUser 2).height = 2 := rfl
    omega
  decide

/-- At height 3 a node at depth 3 meets level 2 and is split. -/
theorem not_heightBounded_oneUser : ¬HeightBounded (oneUser 3) := by
  intro hbounded
  have hrun : ∃ s St q, run (step (deep (visit (oneUser 3)))) ({}, [((oneUser 3).users, 0)])
      (List.replicate 7 ()) = some (s, (St, 3) :: q) ∧ s.level = 2 ∧
      (generateDecisionTree (oneUser 3) s.level s.result St).2 ≠ [] :=
    ⟨_, _, _, rfl, rfl, List.cons_ne_nil _ _⟩
  obtain ⟨s, St, q, hrun, -, hpushed⟩ := hrun
  exact absurd ((hbounded s St 3 ⟨q, _, hrun⟩).2 hpushed) (by decide)

end Paracel.DecisionTree
