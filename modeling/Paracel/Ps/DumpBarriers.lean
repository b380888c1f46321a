import Paracel.Misc.Spmd
import Paracel.Types

/-!
# Barriers in the dump calls

`paracel_dump_vector` and `paracel_dump_dict` (`include/ps.hpp`) write a file for
each worker; with `merge` the first worker then puts the files of all together.
It calls `paracel_sync` before that, alone: the test of the worker id is around
the barrier too. A barrier does not know by which call it was entered, so from
there on it meets the others in their next barrier, and at the end of the program
it waits for a barrier that they do not enter.
-/

namespace Paracel.DumpBarriers

open StepSystem Spmd

/-- The parameters of a dump call that all overloads share, with their defaults. -/
structure DumpArgs where
  filename : Str := lit "result_"
  appendFlag : Bool := false
  merge : Bool := false

/-- What is done to the files of the output directory. -/
inductive FileOp where
  | write (name : Str) (app : Bool)
  | filesMerge (regx name : Str)

/-- What a worker does in a call; a barrier with the place of the call in the program. -/
inductive Move where
  | file (op : FileOp)
  | synchronize (point : Nat)

/-- `paracel_sync`. -/
def paracelSync (point : Nat) : List Move :=
  [.synchronize point]

/-- What every dump call does that has a body: its own file, and after it, on worker 0 only, the
    merge. -/
def dump (workerId point : Nat) (args : DumpArgs) : List Move :=
  .file (.write (args.filename ++ toStr workerId) args.appendFlag) ::
    if args.merge ∧ workerId = 0 then
      paracelSync point ++ [.file (.filesMerge (args.filename ++ lit "*") args.filename)]
    else []

/-- The value types of the `paracel_dump_dict` overloads. -/
inductive DictOverload where
  | int
  | double
  | list
  | strPairs
  | idPairs

/-- `paracel_dump_vector` with a map of ids, whose body is empty. -/
def paracelDumpVectorIds (_ : DumpArgs) : List Move :=
  []

/-- `paracel_dump_vector`. -/
def paracelDumpVector (workerId point : Nat) (args : DumpArgs) : List Move :=
  dump workerId point args

/-- `paracel_dump_dict`; the overloads write different texts and are alike otherwise. -/
def paracelDumpDict (_ : DictOverload) (workerId point : Nat) (args : DumpArgs) : List Move :=
  dump workerId point args

/-- A call that all workers make, with the same arguments. -/
inductive Call where
  | paracelDumpVectorIds (args : DumpArgs)
  | paracelDumpVector (args : DumpArgs)
  | paracelDumpDict (overload : DictOverload) (args : DumpArgs)
  | paracelSync

/-- What a worker does in a call. -/
def Call.moves (workerId point : Nat) : Call → List Move
  | .paracelDumpVectorIds args => DumpBarriers.paracelDumpVectorIds args
  | .paracelDumpVector args => DumpBarriers.paracelDumpVector workerId point args
  | .paracelDumpDict overload args => DumpBarriers.paracelDumpDict overload workerId point args
  | .paracelSync => DumpBarriers.paracelSync point

/-- A call in which worker 0 merges. -/
def Call.Merges : Call → Prop
  | .paracelDumpVector args | .paracelDumpDict _ args => args.merge = true
  | .paracelDumpVectorIds _ | .paracelSync => False

/-- What a worker does in a program whose first call is at `point`. -/
def moves (workerId : Nat) : Nat → List Call → List Move
  | _, [] => []
  | point, c :: prog => c.moves workerId point ++ moves workerId (point + 1) prog

/-- The places of the barriers that a worker enters, in order. -/
def barriers (ms : List Move) : List Nat :=
  ms.filterMap fun
    | .synchronize point => some point
    | .file _ => none

/-- The file operations between the barriers. -/
def segments : List Move → List (List FileOp)
  | [] => [[]]
  | .synchronize _ :: ms => [] :: segments ms
  | .file op :: ms =>
      match segments ms with
      | [] => [[op]]
      | seg :: segs => (op :: seg) :: segs

/-- All workers enter the same number of barriers, each at the same place of the program. -/
def SameBarriers (n : Nat) (prog : List Call) : Prop :=
  ∀ w w' : Fin n, barriers (moves w 0 prog) = barriers (moves w' 0 prog)

/-- The workers before the first call, with the files that there are. -/
def start {S : Type} (n : Nat) (prog : List Call) (files : S) :
    State n (List (List FileOp)) FileOp S :=
  { loc := fun w => segments (moves w 0 prog), store := files }

/-- Where no worker can go on all workers are through, whatever `sem` says that the operations do
    to the files. -/
def NoneLeftWaiting {S : Type} (n : Nat) (prog : List Call) (sem : S → FileOp → Unit × S)
    (files : S) : Prop :=
  ∀ st, Reachable (step (fun _ => straight) sem) (start n prog files) st →
    Stuck (step (fun _ => straight) sem) st → ∀ w, straight (R := Unit) (st.loc w) = .halt

/-! ### The barriers of a program -/

section Count

variable {prog : List Call} {workerId point : Nat}

theorem barriers_append (ms ms' : List Move) :
    barriers (ms ++ ms') = barriers ms ++ barriers ms' :=
  List.filterMap_append

theorem length_segments (ms : List Move) : (segments ms).length = (barriers ms).length + 1 := by
  induction ms with
  | nil => rfl
  | cons m ms ih =>
      cases m with
      | synchronize point =>
          rw [segments, List.length_cons, ih]
          rfl
      | file op =>
          rw [segments]
          have hbarriers : barriers (.file op :: ms) = barriers ms := rfl
          rw [hbarriers, ← ih]
          cases hsegs : segments ms with
          | nil =>
              rw [hsegs] at ih
              simp at ih
          | cons seg segs => rfl

/-- A worker enters a barrier in `paracel_sync`, and worker 0 in the calls that merge. -/
theorem barriers_moves (c : Call) (workerId point : Nat) :
    barriers (c.moves workerId point) = barriers (c.moves 1 point) ∨
      (workerId = 0 ∧ c.Merges) := by
  have hdump : ∀ args : DumpArgs,
      barriers (dump workerId point args) = barriers (dump 1 point args) ∨
        (workerId = 0 ∧ args.merge = true) := by
    intro args
    by_cases hmerge : args.merge = true ∧ workerId = 0
    · exact .inr ⟨hmerge.2, hmerge.1⟩
    · left
      rw [dump, dump, if_neg hmerge, if_neg (by omega)]
      rfl
  cases c with
  | paracelDumpVectorIds args => exact .inl rfl
  | paracelDumpVector args => exact hdump args
  | paracelDumpDict overload args => exact hdump args
  | paracelSync => exact .inl rfl

/-- A call that merges makes worker 0 enter one barrier more than the others. -/
theorem length_barriers_of_merges {c : Call} (h : c.Merges) (point : Nat) :
    (barriers (c.moves 0 point)).length = (barriers (c.moves 1 point)).length + 1 := by
  have hdump : ∀ args : DumpArgs, args.merge = true →
      (barriers (dump 0 point args)).length = (barriers (dump 1 point args)).length + 1 := by
    intro args hmerge
    rw [dump, dump, if_pos ⟨hmerge, rfl⟩, if_neg (by omega)]
    rfl
  cases c with
  | paracelDumpVectorIds args => cases h
  | paracelDumpVector args => exact hdump args h
  | paracelDumpDict overload args => exact hdump args h
  | paracelSync => cases h

theorem length_barriers_le (c : Call) (point : Nat) :
    (barriers (c.moves 1 point)).length ≤ (barriers (c.moves 0 point)).length := by
  rcases barriers_moves c 0 point with heq | ⟨-, hmerges⟩
  · rw [heq]
  · have hone := length_barriers_of_merges hmerges point
    omega

/-- Over a program these barriers add up. -/
theorem length_barriers_lt (h : ∃ c ∈ prog, c.Merges) (point : Nat) :
    (barriers (moves 1 point prog)).length < (barriers (moves 0 point prog)).length := by
  have hle : ∀ (prog : List Call) (point : Nat),
      (barriers (moves 1 point prog)).length ≤ (barriers (moves 0 point prog)).length := by
    intro prog
    induction prog with
    | nil => exact fun _ => le_refl _
    | cons c prog ih =>
        intro point
        simp only [moves, barriers_append, List.length_append]
        exact Nat.add_le_add (length_barriers_le c point) (ih (point + 1))
  induction prog generalizing point with
  | nil =>
      obtain ⟨c, hc, -⟩ := h
      cases hc
  | cons c prog ih =>
      simp only [moves, barriers_append, List.length_append]
      obtain ⟨c', hc', hmerges⟩ := h
      rcases List.mem_cons.mp hc' with rfl | hc'
      · have hone := length_barriers_of_merges hmerges point
        have hrest := hle prog (point + 1)
        omega
      · have hrest := ih ⟨c', hc', hmerges⟩ (point + 1)
        exact Nat.add_lt_add_of_le_of_lt (length_barriers_le c point) hrest

/-- Without a merge the barriers do not depend on the worker. -/
theorem barriers_eq (h : ∀ c ∈ prog, ¬c.Merges) (workerId point : Nat) :
    barriers (moves workerId point prog) = barriers (moves 1 point prog) := by
  induction prog generalizing point with
  | nil => rfl
  | cons c prog ih =>
      rw [List.forall_mem_cons] at h
      have hcall := (barriers_moves c workerId point).resolve_right fun hm => h.1 hm.2
      rw [moves, moves, barriers_append, barriers_append, hcall, ih h.2]

end Count

/-! ### When they match -/

section Match

variable {n : Nat} {prog : List Call}

/-- One worker, or no call that merges. -/
def Unmerged (n : Nat) (prog : List Call) : Prop :=
  n ≤ 1 ∨ ∀ c ∈ prog, ¬c.Merges

theorem sameBarriers_of_unmerged (h : Unmerged n prog) : SameBarriers n prog := by
  intro w w'
  rcases h with hn | hprog
  · have hw : w = w' := Fin.ext (by omega)
    rw [hw]
  · rw [barriers_eq hprog, barriers_eq hprog w']

/-- If the workers enter equally many barriers, none of several workers merges. -/
theorem unmerged_of_length_eq
    (h : ∀ w w' : Fin n, (barriers (moves w 0 prog)).length = (barriers (moves w' 0 prog)).length) :
    Unmerged n prog := by
  by_cases hn : n ≤ 1
  · exact .inl hn
  · right
    intro c hc hmerges
    have hlt := length_barriers_lt ⟨c, hc, hmerges⟩ 0
    exact absurd (h ⟨0, by omega⟩ ⟨1, by omega⟩) (Nat.ne_of_gt hlt)

theorem sameBarriers_iff : SameBarriers n prog ↔ Unmerged n prog := by
  refine ⟨fun h => ?_, sameBarriers_of_unmerged⟩
  exact unmerged_of_length_eq fun w w' => congrArg List.length (h w w')

theorem noneLeftWaiting_iff {S : Type} (sem : S → FileOp → Unit × S) (files : S) :
    NoneLeftWaiting n prog sem files ↔ Unmerged n prog := by
  constructor
  · intro h
    by_cases hn : n ≤ 1
    · exact .inl hn
    · have hne : ∀ w : Fin n, segments (moves w 0 prog) ≠ [] := by
        intro w hnil
        have hlen := length_segments (moves w 0 prog)
        rw [hnil] at hlen
        cases hlen
      have hlen := straight_length_eq (by omega) hne h
      apply unmerged_of_length_eq
      intro w w'
      have hw := hlen w w'
      rw [length_segments, length_segments] at hw
      omega
  · intro h st hreach hstuck w
    have hsame := sameBarriers_of_unmerged h
    refine straight_halts_of_stuck ?_ hreach hstuck w
    intro x x'
    rw [length_segments, length_segments, hsame x x']

end Match

/-- All workers enter the same barriers at the same places, and none is left waiting in one, just
    when there is one worker or no call merges; with several workers and a call that merges,
    worker 0 can be left waiting. -/
theorem dump_barriers_iff {S : Type} (n : Nat) (prog : List Call)
    (sem : S → FileOp → Unit × S) (files : S) :
    (SameBarriers n prog ∧ NoneLeftWaiting n prog sem files ↔
      n ≤ 1 ∨ ∀ c ∈ prog, ¬c.Merges) ∧
    (NoneLeftWaiting n prog sem files ↔ n ≤ 1 ∨ ∀ c ∈ prog, ¬c.Merges) := by
  refine ⟨?_, noneLeftWaiting_iff sem files⟩
  constructor
  · intro h
    exact sameBarriers_iff.mp h.1
  · intro h
    exact ⟨sameBarriers_of_unmerged h, (noneLeftWaiting_iff sem files).mpr h⟩

/-- Two workers that dump a vector, with a merge, and synchronize: worker 0 enters two barriers,
    worker 1 enters one. -/
theorem not_dump_barriers_twoWorkers :
    ¬∀ (n : Nat) (prog : List Call),
      SameBarriers n prog ∧ NoneLeftWaiting n prog (fun (_ : Unit) _ => ((), ())) () := by
  intro h
  have hsame := (h 2 [.paracelDumpVector { merge := true }, .paracelSync]).1 0 1
  have hzero : barriers (moves 0 0 [.paracelDumpVector { merge := true }, .paracelSync]) =
      [0, 1] := rfl
  have hone : barriers (moves 1 0 [.paracelDumpVector { merge := true }, .paracelSync]) = [1] := rfl
  rw [Fin.val_zero, Fin.val_one, hzero, hone] at hsame
  cases hsame

end Paracel.DumpBarriers
