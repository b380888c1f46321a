import Mathlib.Algebra.Order.BigOperators.Group.List
import Paracel.Comm.TripleList
import Paracel.Load.IndexMappingCompact
import Paracel.Load.LinesOrganize
import Paracel.Misc.Recoding

/-!
# Compact triples on their way to another rank

`Comm::isend` and `Comm::recv` on a list of compact triples, the `alltoall` made of
them and the overload of `scheduler::exchange` that uses it (`include/utils/comm.hpp`,
`include/load/scheduler.hpp`). The ids are printed and read back as they were. A
weight is printed with six decimals, while the list that a rank has for itself is
copied.
-/

namespace Paracel.CompactTriples

open SplitWord Network StepSystem Comm

/-- `lambda_local_pack`. -/
def localPack (tpl : CompactTriple ℚ) : Str :=
  toStr tpl.1.toNat ++ seperatorInner ++ toStr tpl.2.1.toNat ++ seperatorInner ++
    doubleStr tpl.2.2

/-- The ids and the weight of one piece. -/
def unpackTriple (s : Str) : Except Fault (CompactTriple ℚ) := do
  let tpl := strSplitByWord s seperatorInner
  let first ← elem tpl 0
  let i ← orThrow (Organize.stoull first)
  let second ← elem tpl 1
  let j ← orThrow (Organize.stoull second)
  let text ← elem tpl 2
  let w ← orThrow (stod text)
  return (i, j, w)

/-- `Comm::isend` of a list of compact triples: its size and its text. -/
def isend (tripleLst : List (CompactTriple ℚ)) : Nat × Str :=
  (tripleLst.length, TripleList.packList localPack tripleLst)

/-- `Comm::recv` of a list of compact triples. -/
def recv (tripleLst : List (CompactTriple ℚ)) (msg : Nat × Str) :
    Except Fault (List (CompactTriple ℚ)) :=
  TripleList.recvList unpackTriple (0, 0, 0) tripleLst msg

/-- The loop of `Comm::alltoall` on lists of lists of compact triples; a rank on which `recv`
    fails takes no further step. -/
def alltoallAct (mSz mRk : Nat) :
    Except Fault (Alltoall (CompactTriple ℚ)) →
      Action (Except Fault (Alltoall (CompactTriple ℚ))) (Nat × Str)
  | .error _ => .halt
  | .ok l =>
      let f := (mRk + l.i) % mSz
      let t := (mRk + mSz - l.i) % mSz
      match l.pc with
      | .loop =>
          if l.i < mSz then .send t (isend (l.sbuf.getD t [])) (.ok { l with pc := .wait })
          else .halt
      | .wait =>
          .recv f fun msg => do
            let tmpr ← recv [] msg
            return { l with rbuf := l.rbuf.modify t (· ++ tmpr), i := l.i + 1, pc := .loop }

/-- The loop on every rank. -/
def alltoall (n : Nat) (r : Fin n) :
    Except Fault (Alltoall (CompactTriple ℚ)) →
      Action (Except Fault (Alltoall (CompactTriple ℚ))) (Nat × Str) :=
  alltoallAct n r

/-- `scheduler::exchange` on all ranks, at the loop of its `alltoall`; `lineSlotLst r q` is what
    rank `r` has for rank `q`. -/
def exchangeInit {n : Nat} (lineSlotLst : Fin n → Fin n → List (CompactTriple ℚ)) :
    State n (Except Fault (Alltoall (CompactTriple ℚ))) (Nat × Str) where
  loc r := .ok (alltoallStart r (List.ofFn (lineSlotLst r)) [])

/-- `alltoall` has returned on all ranks. -/
def AllReturned {n : Nat} (st : State n (Except Fault (Alltoall (CompactTriple ℚ))) (Nat × Str)) :
    Prop :=
  ∀ r, ∃ l, st.loc r = .ok l ∧ alltoall n r (.ok l) = .halt

/-- `scheduler::exchange` after its `alltoall`. -/
def exchange {W : Type} (recvLsl : List (List (CompactTriple W))) (stf : List (CompactTriple W)) :
    List (CompactTriple W) :=
  stf ++ recvLsl.flatten

/-! ### One list -/

/-- A triple as it arrives. -/
def arrived (tpl : CompactTriple ℚ) : CompactTriple ℚ :=
  (tpl.1, tpl.2.1, printed tpl.2.2)

theorem arrived_eq_self_iff {tpl : CompactTriple ℚ} :
    arrived tpl = tpl ↔ ∃ m : ℤ, tpl.2.2 = m / 10 ^ 6 := by
  rw [← printed_eq_self_iff]
  simp [arrived, Prod.ext_iff]

/-- A list is as it was exactly when each of its weights has six decimals. -/
theorem map_arrived_eq_self_iff {lst : List (CompactTriple ℚ)} :
    lst.map arrived = lst ↔ ∀ tpl ∈ lst, ∃ m : ℤ, tpl.2.2 = m / 10 ^ 6 := by
  have hself : lst.map arrived = lst ↔ ∀ tpl ∈ lst, arrived tpl = tpl := by
    simpa using List.map_inj_left (f := arrived) (g := id) (l := lst)
  simp only [hself, arrived_eq_self_iff]

theorem stoull_toStr (id : UInt64) : Organize.stoull (toStr id.toNat) = some id := by
  have hlt : decVal (toStr id.toNat) < 2 ^ 64 := by
    rw [decVal_toStr]
    exact id.toNat_lt
  rw [Organize.stoull_of_digits (toStr_ne_nil _) (fun _ => isDigit_of_mem_toStr) hlt, decVal_toStr,
    UInt64.ofNat_toNat]

/-- The bytes of a printed id and of the separators. -/
theorem notMem_of_mem_toStr {n : Nat} {c : UInt8} (h : c ∈ toStr n) :
    c ∉ seperator ∧ c ∉ seperatorInner := by
  have hsep : ∀ c ∈ seperator ++ seperatorInner, 58 ≤ c.toNat :=
    List.forall_iff_forall_mem.mp (by decide)
  have hle := (mem_toStr h).2
  constructor
  · intro hmem
    have hge := hsep c (List.mem_append_left _ hmem)
    omega
  · intro hmem
    have hge := hsep c (List.mem_append_right _ hmem)
    omega

theorem seperator_infix_toStr_append_iff (n : Nat) (r : Str) :
    seperator <:+: toStr n ++ r ↔ seperator <:+: r := by
  have happend := infix_append_append_iff (toStr_ne_nil n)
    (fun _ hc => (notMem_of_mem_toStr hc).1) [] r
  rwa [List.nil_append, or_iff_right fun h => seperator_ne_nil (List.infix_nil.mp h)] at happend

theorem clean_seperatorInner_toStr (n : Nat) : Clean seperatorInner (toStr n) := by
  have happend := infix_append_append_iff (toStr_ne_nil n)
    (fun _ hc => (notMem_of_mem_toStr hc).2) [] seperatorInner.dropLast
  rw [Clean, ← List.nil_append (toStr n ++ _), happend]
  decide

/-- No separator starts in a packed triple. -/
theorem clean_localPack (tpl : CompactTriple ℚ) : Clean seperator (localPack tpl) := by
  have hunderscore : ¬seperator <:+: lit "_" := by decide
  have hpack : localPack tpl =
      TripleList.localPack (toStr tpl.1.toNat, toStr tpl.2.1.toNat, tpl.2.2) := rfl
  rw [hpack, TripleList.clean_localPack_iff, TripleList.seperator_infix_localPack_iff]
  have hsecond : ¬seperator <:+: lit "_" ++ (toStr tpl.2.1.toNat ++ lit "_") := by
    rw [infix_append_append_iff (toStr_ne_nil _) fun _ hc => (notMem_of_mem_toStr hc).1, or_self]
    exact hunderscore
  rw [seperator_infix_toStr_append_iff, List.append_assoc]
  exact fun h => h.elim hunderscore hsecond

theorem localPack_ne_nil (tpl : CompactTriple ℚ) : localPack tpl ≠ [] := by
  simp [localPack, doubleStr_ne_nil]

/-- The ids of a triple are read back, and of its weight what was printed. -/
theorem unpackTriple_localPack (tpl : CompactTriple ℚ) :
    unpackTriple (localPack tpl) = .ok (arrived tpl) := by
  have hne := seperatorInner_ne_nil
  have hlast : splitWord seperatorInner (doubleStr tpl.2.2) = [doubleStr tpl.2.2] :=
    splitWord_of_absent (TripleList.not_seperatorInner_infix_doubleStr _)
  have hpieces : strSplitByWord (localPack tpl) seperatorInner =
      [toStr tpl.1.toNat, toStr tpl.2.1.toNat, doubleStr tpl.2.2] := by
    have hpack : localPack tpl = toStr tpl.1.toNat ++ seperatorInner ++
        (toStr tpl.2.1.toNat ++ seperatorInner ++ doubleStr tpl.2.2) := by
      simp only [localPack, List.append_assoc]
    rw [hpack, strSplitByWord_append hne (clean_seperatorInner_toStr _),
      strSplitByWord_append hne (clean_seperatorInner_toStr _), strSplitByWord, hlast]
    simp [doubleStr_ne_nil]
  rw [unpackTriple, hpieces]
  show ((orThrow (Organize.stoull (toStr tpl.1.toNat))).bind fun i =>
    (orThrow (Organize.stoull (toStr tpl.2.1.toNat))).bind fun j =>
      (orThrow (stod (doubleStr tpl.2.2))).bind fun w => .ok (i, j, w)) = _
  rw [stoull_toStr, stoull_toStr, stod_doubleStr_eq]
  rfl

/-- Every list is received, with its weights as they were printed. -/
theorem recv_isend (lst : List (CompactTriple ℚ)) :
    recv [] (isend lst) = .ok (lst.map arrived) := by
  have hsplit : strSplitByWord (TripleList.packList localPack lst) seperator =
      lst.map localPack :=
    TripleList.strSplitByWord_packList (fun tpl _ => clean_localPack tpl)
      fun tpl _ => localPack_ne_nil tpl
  have hread : (lst.map localPack).mapM unpackTriple = .ok (lst.map arrived) := by
    rw [List.mapM_map]
    exact FirstError.mapM_eq_ok fun tpl _ => unpackTriple_localPack tpl
  have hlist := TripleList.recvList_of_mapM (0, 0, 0) (hsplit ▸ hread)
  rwa [List.length_map] at hlist

/-! ### The exchange -/

/-- What rank `r` has for the other ranks, as it arrives there. -/
def carried (r : Nat) (sbuf : List (List (CompactTriple ℚ))) : List (List (CompactTriple ℚ)) :=
  sbuf.mapIdx fun q lst => if q = r then lst else lst.map arrived

theorem getD_carried (r q : Nat) (sbuf : List (List (CompactTriple ℚ))) :
    (carried r sbuf).getD q [] =
      if q = r then sbuf.getD q [] else (sbuf.getD q []).map arrived := by
  simp only [List.getD_eq_getElem?_getD, carried, List.getElem?_mapIdx]
  cases sbuf[q]? with
  | none => simp
  | some lst => rfl

/-- The loop of a rank, if the lists it has for others were as they arrive from the start. -/
def onArrival (r : Nat) : Except Fault (Alltoall (CompactTriple ℚ)) → Alltoall (CompactTriple ℚ)
  | .ok l => { l with sbuf := carried r l.sbuf }
  | .error _ => alltoallStart r [] []

/-- The list in a message. -/
def received (msg : Nat × Str) : List (CompactTriple ℚ) :=
  (recv [] msg).toOption.getD []

/-- A message that `isend` makes. -/
def IsMessage (msg : Nat × Str) : Prop :=
  ∃ lst, msg = isend lst

theorem received_isend (lst : List (CompactTriple ℚ)) : received (isend lst) = lst.map arrived := by
  rw [received, recv_isend]
  rfl

section Exchange

variable {n : Nat} {st st' : State n (Except Fault (Alltoall (CompactTriple ℚ))) (Nat × Str)}

/-- On no rank has `recv` failed. -/
structure Sound (st : State n (Except Fault (Alltoall (CompactTriple ℚ))) (Nat × Str)) : Prop where
  loc : ∀ r, ∃ l, st.loc r = .ok l ∧ 1 ≤ l.i
  sent : st.AllSent IsMessage

theorem alltoall_of_loop (r : Fin n) {l : Alltoall (CompactTriple ℚ)} (hpc : l.pc = .loop) :
    alltoall n r (.ok l) =
      if l.i < n then
        .send ((r + n - l.i) % n) (isend (l.sbuf.getD ((r + n - l.i) % n) []))
          (.ok { l with pc := .wait })
      else .halt := by
  simp only [alltoall, alltoallAct, hpc]

theorem alltoall_of_wait (r : Fin n) {l : Alltoall (CompactTriple ℚ)} (hpc : l.pc = .wait) :
    alltoall n r (.ok l) =
      .recv ((r + l.i) % n) fun msg => (recv [] msg).bind fun tmpr =>
        .ok { l with
          rbuf := l.rbuf.modify ((r + n - l.i) % n) (· ++ tmpr), i := l.i + 1, pc := .loop } := by
  simp only [alltoall, alltoallAct, hpc]
  rfl

/-- A rank does what it does in the `alltoall` of lists that are sent as they are. -/
theorem sim_alltoall (r : Fin n) {l : Alltoall (CompactTriple ℚ)} (hpos : 1 ≤ l.i) :
    (alltoall n r (.ok l)).Sim (onArrival r) received IsMessage
      (Comm.alltoall n r (onArrival r (.ok l))) := by
  cases hpc : l.pc with
  | loop =>
      have hact : Comm.alltoall n r (onArrival r (.ok l)) =
          if l.i < n then
            .send ((r + n - l.i) % n) ((carried r l.sbuf).getD ((r + n - l.i) % n) [])
              (onArrival r (.ok { l with pc := .wait }))
          else .halt := by
        simp only [Comm.alltoall, Comm.alltoallAct, onArrival, hpc]
      rw [alltoall_of_loop r hpc, hact]
      by_cases hi : l.i < n
      · -- a rank does not send to itself
        have hne : (r + n - l.i) % n ≠ r := by
          intro h
          have hstep := (target_eq r r hi).mp h
          rw [ringStep_self] at hstep
          omega
        rw [if_pos hi, if_pos hi, getD_carried, if_neg hne, ← received_isend]
        exact .send _ _ _ ⟨_, rfl⟩
      · rw [if_neg hi, if_neg hi]
        exact .halt
  | wait =>
      have hact : Comm.alltoall n r (onArrival r (.ok l)) =
          .recv ((r + l.i) % n) fun tmpr => onArrival r (.ok { l with
            rbuf := l.rbuf.modify ((r + n - l.i) % n) (· ++ tmpr)
            i := l.i + 1
            pc := .loop }) := by
        simp only [Comm.alltoall, Comm.alltoallAct, onArrival, hpc]
      rw [alltoall_of_wait r hpc, hact]
      refine .recv _ _ _ ?_
      rintro msg ⟨lst, rfl⟩
      rw [received_isend, recv_isend]
      rfl

theorem sound_init (lineSlotLst : Fin n → Fin n → List (CompactTriple ℚ)) :
    Sound (exchangeInit lineSlotLst) where
  loc _ := ⟨_, rfl, Nat.le_refl 1⟩
  sent _ _ _ h := absurd h List.not_mem_nil

theorem sound_step {r : Fin n} (h : Sound st) (hstep : step (alltoall n) st r = some st') :
    Sound st' := by
  rcases h.loc r with ⟨l, hl, hpos⟩
  have hkeep : ∀ {next}, (∃ l, next = Except.ok l ∧ 1 ≤ l.i) → ∀ p,
      ∃ l, Function.update st.loc r next p = .ok l ∧ 1 ≤ l.i := by
    intro next hnext p
    by_cases hp : p = r
    · subst hp
      rwa [Function.update_self]
    · rw [Function.update_of_ne hp]
      exact h.loc p
  have hchange := step_cases hstep
  cases hpc : l.pc with
  | loop =>
      have hact := alltoall_of_loop r hpc
      rw [← hl] at hact
      by_cases hi : l.i < n
      · rw [if_pos hi] at hact
        refine ⟨?_, allSent_step (r := r) ?_ h.sent hstep⟩
        · cases hchange with
          | send dest m next hact' =>
              rw [hact] at hact'
              cases hact'
              exact hkeep ⟨_, rfl, hpos⟩
          | tau next hact' | recv src next m hact' => simp [hact] at hact'
        · intro dest m next hact'
          rw [hact] at hact'
          cases hact'
          exact ⟨_, rfl⟩
      · rw [if_neg hi] at hact
        cases hchange <;> simp_all
  | wait =>
      have hact := alltoall_of_wait r hpc
      rw [← hl] at hact
      cases hchange with
      | recv src next m hact' hm =>
          rw [hact] at hact'
          cases hact'
          obtain ⟨lst, rfl⟩ := h.sent _ _ m (List.mem_of_getElem? hm)
          refine ⟨hkeep ?_, h.sent⟩
          show ∃ l' : Alltoall _, (recv [] (isend lst)).bind _ = .ok l' ∧ 1 ≤ l'.i
          rw [recv_isend]
          exact ⟨_, rfl, Nat.le_add_left 1 l.i⟩
      | tau next hact' | send dest m next hact' => simp [hact] at hact'

/-- The state in which the lists are as they arrive. -/
abbrev arrivedState (st : State n (Except Fault (Alltoall (CompactTriple ℚ))) (Nat × Str)) :
    State n (Alltoall (CompactTriple ℚ)) (List (CompactTriple ℚ)) :=
  st.recode (fun r => onArrival r) received

theorem step_arrivedState {r : Fin n} (h : Sound st) :
    step (Comm.alltoall n) (arrivedState st) r = (step (alltoall n) st r).map arrivedState := by
  rcases h.loc r with ⟨l, hl, hpos⟩
  refine step_recode ?_ h.sent
  rw [hl]
  exact sim_alltoall r hpos

variable {lineSlotLst : Fin n → Fin n → List (CompactTriple ℚ)}

/-- The slots of a rank, with the lists for others as they arrive. -/
def arrivedSlots (lineSlotLst : Fin n → Fin n → List (CompactTriple ℚ)) (r : Fin n) :
    List (List (CompactTriple ℚ)) :=
  carried r (List.ofFn (lineSlotLst r))

theorem length_arrivedSlots (r : Fin n) : (arrivedSlots lineSlotLst r).length = n := by
  simp [arrivedSlots, carried]

theorem outgoing_arrivedSlots (p q : Fin n) :
    outgoing (arrivedSlots lineSlotLst) p q =
      if q = p then lineSlotLst p q else (lineSlotLst p q).map arrived := by
  have hslot : (List.ofFn (lineSlotLst p)).getD q [] = lineSlotLst p q := by
    simp [List.getD_eq_getElem?_getD]
  rw [outgoing, arrivedSlots, getD_carried, hslot]
  simp only [Fin.ext_iff]

theorem arrivedState_init :
    arrivedState (exchangeInit lineSlotLst) = alltoallInit (arrivedSlots lineSlotLst) := by
  have hloc : ∀ r : Fin n, onArrival r (.ok (alltoallStart r (List.ofFn (lineSlotLst r)) [])) =
      alltoallStart r (arrivedSlots lineSlotLst r) [] := by
    intro r
    have hlen : (arrivedSlots lineSlotLst r).length = (List.ofFn (lineSlotLst r)).length := by
      rw [length_arrivedSlots, List.length_ofFn]
    have hown : (arrivedSlots lineSlotLst r).getD r [] = (List.ofFn (lineSlotLst r)).getD r [] := by
      rw [arrivedSlots, getD_carried, if_pos rfl]
    simp only [onArrival, alltoallStart, hlen, hown]
    rfl
  show State.mk _ _ _ = State.mk _ _ _
  simp only [exchangeInit, hloc, List.map_nil]

theorem reachable_arrivedState (h : Reachable (step (alltoall n)) (exchangeInit lineSlotLst) st) :
    Sound st ∧ AlltoallInv (arrivedSlots lineSlotLst) (arrivedState st) := by
  have hrecode : ∀ (s : State n (Except Fault (Alltoall (CompactTriple ℚ))) (Nat × Str))
      (r : Fin n), Sound s → step (Comm.alltoall n) (s.recode (fun r => onArrival r) received) r =
        (step (alltoall n) s r).map (State.recode (fun r => onArrival r) received) :=
    fun _ _ hs => step_arrivedState hs
  obtain ⟨hsound, hreach⟩ := reachable_recode (P := Sound)
    (fun _ _ _ hs hstep => sound_step hs hstep) hrecode (sound_init lineSlotLst) h
  rw [show State.recode (fun r => onArrival r) received (exchangeInit lineSlotLst) = _
    from arrivedState_init] at hreach
  exact ⟨hsound, alltoallInv_reachable length_arrivedSlots hreach⟩

theorem allReturned_iff (h : Sound st) : AllReturned st ↔ Comm.AllReturned (arrivedState st) := by
  apply forall_congr'
  intro r
  rcases h.loc r with ⟨l, hl, hpos⟩
  have hhalt := (sim_alltoall r hpos).eq_halt
  have hloc : (arrivedState st).loc r = onArrival r (.ok l) := congrArg (onArrival r) hl
  rw [hloc, ← hhalt]
  constructor
  · rintro ⟨l', hl', hact⟩
    rw [hl] at hl'
    cases hl'
    exact hact
  · intro hact
    exact ⟨l, hl, hact⟩

/-- The exchange comes to return on all ranks. -/
theorem exchange_returns (lineSlotLst : Fin n → Fin n → List (CompactTriple ℚ)) :
    ∃ st, Reachable (step (alltoall n)) (exchangeInit lineSlotLst) st ∧ AllReturned st := by
  have hmeasure : ∀ s r s', Reachable (step (alltoall n)) (exchangeInit lineSlotLst) s →
      step (alltoall n) s r = some s' →
      Reachable (step (alltoall n)) (exchangeInit lineSlotLst) s' ∧
        ∑ p, ((arrivedState s').loc p).left n < ∑ p, ((arrivedState s).loc p).left n := by
    intro s r s' hs hstep
    obtain ⟨hsound, hinv⟩ := reachable_arrivedState hs
    refine ⟨hs.tail hstep, alltoall_left_lt hinv (r := r) ?_⟩
    rw [step_arrivedState hsound, hstep, Option.map_some]
  obtain ⟨-, st, -, hst, hstuck⟩ := exists_stuck _ hmeasure (Reachable.refl _)
  obtain ⟨hsound, hinv⟩ := reachable_arrivedState hst
  refine ⟨st, hst, (allReturned_iff hsound).mpr ?_⟩
  by_contra hnot
  refine alltoall_progress hinv hnot fun r => ?_
  rw [step_arrivedState hsound, hstuck r, Option.map_none]

/-- What a rank has after the exchange, in some order. -/
theorem exchange_perm (h : Reachable (step (alltoall n)) (exchangeInit lineSlotLst) st)
    (hall : AllReturned st) {q : Fin n} {l : Alltoall (CompactTriple ℚ)} (hl : st.loc q = .ok l)
    (stf : List (CompactTriple ℚ)) :
    (exchange l.rbuf stf).Perm (stf ++ (List.finRange n).flatMap fun p =>
      if q = p then lineSlotLst p q else (lineSlotLst p q).map arrived) := by
  obtain ⟨hsound, hinv⟩ := reachable_arrivedState h
  have hrbuf : ((arrivedState st).loc q).rbuf = l.rbuf := by
    show (onArrival q (st.loc q)).rbuf = l.rbuf
    rw [hl]
    rfl
  have hperm := rbuf_perm hinv ((allReturned_iff hsound).mp hall) q
  simp only [hrbuf, outgoing_arrivedSlots] at hperm
  exact hperm.flatten.append_left stf

/-- After the exchange, every rank has the edges that all ranks had for it, as they were. -/
def ExchangeKeeps (lineSlotLst : Fin n → Fin n → List (CompactTriple ℚ)) : Prop :=
  ∀ st, Reachable (step (alltoall n)) (exchangeInit lineSlotLst) st → AllReturned st →
    ∀ q l stf, st.loc q = .ok l →
      (exchange l.rbuf stf).Perm (stf ++ (List.finRange n).flatMap fun p => lineSlotLst p q)

theorem arrived_arrived (tpl : CompactTriple ℚ) : arrived (arrived tpl) = arrived tpl := by
  have hagain : printed (printed tpl.2.2) = printed tpl.2.2 := printed_eq rfl
  simp only [arrived, hagain]

/-- If lists are the same after some were printed and read, these have not changed. -/
theorem perm_arrived_iff {f : Fin n → List (CompactTriple ℚ)} {q : Fin n} :
    ((List.finRange n).flatMap fun p => if q = p then f p else (f p).map arrived).Perm
        ((List.finRange n).flatMap f) ↔
      ∀ p, p ≠ q → (f p).map arrived = f p := by
  constructor
  · intro hperm p hp
    by_contra hne
    -- a changed triple is counted on the one side, and on the other no less than that
    have hcount : ∀ l : List (CompactTriple ℚ),
        (l.map arrived).countP (fun tpl => arrived tpl ≠ tpl) = 0 := by
      intro l
      simp [List.countP_eq_zero, arrived_arrived]
    have hle : ∀ p ∈ List.finRange n,
        (if q = p then f p else (f p).map arrived).countP (fun tpl => arrived tpl ≠ tpl) ≤
          (f p).countP fun tpl => arrived tpl ≠ tpl := by
      intro p _
      split
      · exact le_rfl
      · rw [hcount]
        exact Nat.zero_le _
    have hlt : (if q = p then f p else (f p).map arrived).countP (fun tpl => arrived tpl ≠ tpl) <
        (f p).countP fun tpl => arrived tpl ≠ tpl := by
      rw [if_neg (Ne.symm hp), hcount, List.countP_pos_iff]
      by_contra hall
      refine hne ((List.map_congr_left fun tpl htpl => ?_).trans (List.map_id (f p)))
      by_contra hchanged
      exact hall ⟨tpl, htpl, decide_eq_true hchanged⟩
    have hsum := List.sum_lt_sum _ _ hle ⟨p, List.mem_finRange p, hlt⟩
    have heq := hperm.countP_eq fun tpl => arrived tpl ≠ tpl
    rw [List.countP_flatMap, List.countP_flatMap] at heq
    exact absurd heq hsum.ne
  · intro hall
    refine List.Perm.of_eq (List.flatMap_congr fun p _ => ?_)
    by_cases hp : q = p
    · rw [if_pos hp]
    · rw [if_neg hp, hall p (Ne.symm hp)]

theorem exchangeKeeps_iff :
    ExchangeKeeps lineSlotLst ↔
      ∀ p q, p ≠ q → ∀ tpl ∈ lineSlotLst p q, ∃ m : ℤ, tpl.2.2 = m / 10 ^ 6 := by
  constructor
  · intro hkeeps p q hpq
    obtain ⟨st, hst, hall⟩ := exchange_returns lineSlotLst
    obtain ⟨l, hl, -⟩ := hall q
    have hperm := (exchange_perm hst hall hl []).symm.trans (hkeeps st hst hall q l [] hl)
    rw [List.nil_append, List.nil_append] at hperm
    exact map_arrived_eq_self_iff.mp (perm_arrived_iff.mp hperm p hpq)
  · intro hw st hst hall q l stf hl
    refine (exchange_perm hst hall hl stf).trans (List.Perm.append_left stf ?_)
    exact perm_arrived_iff.mpr fun p hp => map_arrived_eq_self_iff.mpr (hw p q hp)

end Exchange

/-- A list is received as it was sent, and the edges of other ranks arrive as they were, exactly
    when every weight that is sent is a multiple of 10^-6. -/
theorem recv_isend_iff_and_exchangeKeeps_iff (lst : List (CompactTriple ℚ)) {n : Nat}
    (lineSlotLst : Fin n → Fin n → List (CompactTriple ℚ)) :
    (recv [] (isend lst) = .ok lst ↔ ∀ tpl ∈ lst, ∃ m : ℤ, tpl.2.2 = m / 10 ^ 6) ∧
    (ExchangeKeeps lineSlotLst ↔
      ∀ p q, p ≠ q → ∀ tpl ∈ lineSlotLst p q, ∃ m : ℤ, tpl.2.2 = m / 10 ^ 6) := by
  refine ⟨?_, exchangeKeeps_iff⟩
  rw [recv_isend, Except.ok.injEq, map_arrived_eq_self_iff]

/-- A weight of 10^-7 is 0 on the other rank. -/
theorem not_recv_isend_smallWeight :
    ¬∀ lst : List (CompactTriple ℚ), recv [] (isend lst) = .ok lst := by
  intro hall
  have hsent := hall [(1, 2, 1 / 10 ^ 7)]
  have hreceived : recv [] (isend [(1, 2, 1 / 10 ^ 7)]) = .ok [(1, 2, 0)] := by decide +kernel
  rw [hsent] at hreceived
  exact absurd hreceived (by decide +kernel)

end Paracel.CompactTriples
