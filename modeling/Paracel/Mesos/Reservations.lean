import Mathlib.Algebra.Order.BigOperators.Group.List
import Paracel.Mesos.Scheduler

/-!
# The machines that are taken

The scheduler keeps three tables: the launched tasks, the machine and the slots
of each task, and the slots by machine. They are never at odds, in whatever
order offers and reports come: no callback meets a missing key, no machine is
taken for two tasks, and no more slots are taken than the job has processes.
-/

namespace Paracel.Mesos

open Index StepSystem

variable {o : Options} {s : Sched}

/-- What holds of the tables. -/
structure Sound (o : Options) (s : Sched) : Prop where
  index : IndexOf s.usedTasks s.usedHosts
  fresh : ∀ tid ∈ s.usedTasks, tid < s.id
  launched : ∀ tid ∈ s.taskLaunched, tid ∈ s.usedTasks
  slots : ∀ host k, s.usedHosts.lookup host = some k → 1 ≤ k
  total : sumValues s.usedHosts ≤ max o.tasks 0
  before : s.started = false → ∀ tid ∈ s.usedTasks, tid ∈ s.taskLaunched

theorem Sound.empty : Sound o {} where
  index := IndexOf.empty
  fresh tid h := by simp at h
  launched tid h := by simp at h
  slots host k h := by simp at h
  total := by
    rw [sumValues_empty]
    exact le_max_right o.tasks 0
  before _ tid h := by simp at h

/-- Only the tables matter. -/
theorem Sound.congr {s' : Sched} (hs : Sound o s) (hlaunched : s'.taskLaunched = s.taskLaunched)
    (hhosts : s'.usedHosts = s.usedHosts) (htasks : s'.usedTasks = s.usedTasks)
    (hid : s'.id = s.id) (hstarted : s'.started = false → s.started = false) : Sound o s' where
  index := by
    rw [htasks, hhosts]
    exact hs.index
  fresh := by
    rw [htasks, hid]
    exact hs.fresh
  launched := by
    rw [hlaunched, htasks]
    exact hs.launched
  slots := by
    rw [hhosts]
    exact hs.slots
  total := by
    rw [hhosts]
    exact hs.total
  before h := by
    rw [hlaunched, htasks]
    exact hs.before (hstarted h)

/-! ### Offers -/

/-- The slots of an offer where `slotsOf` returns. -/
def slots (o : Options) (offer : Offer) : Int :=
  let (cpus, mem) := getResource offer
  let slots := truncate (min (cpus / o.cpus) (mem / o.mem) + 1 / 100000)
  if o.taskPerNode ≠ 0 then min slots o.taskPerNode else slots

/-- The offer is taken: slots are missing, the machine is new, of the right group, and has slots. -/
def Takes (o : Options) (s : Sched) (launched : Int) (offer : Offer) : Prop :=
  launched < o.tasks ∧ offer.hostname ∉ s.usedHosts ∧ refused o offer = false ∧ 1 ≤ slots o offer

instance decidableTakes (o : Options) (s : Sched) (launched : Int) (offer : Offer) :
    Decidable (Takes o s launched offer) :=
  inferInstanceAs (Decidable (_ ∧ _ ∧ _ ∧ _))

/-- The tables with a task for `k` slots of a machine. -/
def taken (s : Sched) (hostname : Str) (k : Int) : Sched :=
  { s with
    id := s.id + 1
    usedHosts := s.usedHosts.insert hostname k
    taskLaunched := s.taskLaunched.insert s.id { id := s.id }
    usedTasks := s.usedTasks.insert s.id (hostname, k) }

theorem slotsOf_eq (hcpus : o.cpus ≠ 0) (hmem : o.mem ≠ 0) (offer : Offer) :
    slotsOf o offer = .ok (slots o offer) := by
  simp only [slotsOf, slots, hcpus, hmem, or_self, if_false]

theorem takeOffer_eq (hcpus : o.cpus ≠ 0) (hmem : o.mem ≠ 0) (launched : Int) (offer : Offer) :
    takeOffer o s launched offer =
      if Takes o s launched offer then
        let k := min (slots o offer) (o.tasks - launched)
        .ok (taken s offer.hostname k, launched + k,
          .launchTasks offer.id [createTask o offer { id := s.id } k])
      else .ok (s, launched, .launchTasks offer.id []) := by
  by_cases htakes : Takes o s launched offer
  · obtain ⟨hroom, hhost, hrefused, hslots⟩ := htakes
    have hfull : ¬(o.tasks ≤ launched ∨ offer.hostname ∈ s.usedHosts) := by
      rintro (hle | hin)
      · omega
      · exact hhost hin
    have hmin : 1 ≤ min (slots o offer) (o.tasks - launched) := by omega
    rw [if_pos ⟨hroom, hhost, hrefused, hslots⟩, takeOffer, if_neg hfull, hrefused,
      slotsOf_eq hcpus hmem]
    simp only [Bool.false_eq_true, if_false, bind, Except.bind, if_pos hmin]
    rfl
  · rw [if_neg htakes, takeOffer]
    by_cases hfull : o.tasks ≤ launched ∨ offer.hostname ∈ s.usedHosts
    · rw [if_pos hfull]
    · rw [if_neg hfull]
      rw [not_or, not_le] at hfull
      by_cases hrefused : refused o offer = true
      · rw [if_pos hrefused]
      · rw [if_neg hrefused, slotsOf_eq hcpus hmem]
        have hslots : ¬1 ≤ min (slots o offer) (o.tasks - launched) := by
          intro hle
          exact htakes ⟨hfull.1, hfull.2, Bool.eq_false_of_not_eq_true hrefused, by omega⟩
        simp only [bind, Except.bind, if_neg hslots]

theorem Sound.taken (hs : Sound o s) {hostname : Str} {k : Int} (hhost : hostname ∉ s.usedHosts)
    (hk : 1 ≤ k) (hroom : sumValues s.usedHosts + k ≤ o.tasks) :
    Sound o (Mesos.taken s hostname k) := by
  have hnew : s.id ∉ s.usedTasks := by
    intro h
    exact lt_irrefl _ (hs.fresh _ h)
  constructor
  · exact hs.index.insert hnew hhost
  · intro tid htid
    rcases (AList.mem_insert _).mp htid with rfl | htid
    · exact Nat.lt_succ_self _
    · exact Nat.lt_succ_of_lt (hs.fresh tid htid)
  · intro tid htid
    rcases (AList.mem_insert _).mp htid with rfl | htid
    · exact (AList.mem_insert _).mpr (.inl rfl)
    · exact (AList.mem_insert _).mpr (.inr (hs.launched tid htid))
  · intro host k' hlookup
    by_cases heq : host = hostname
    · subst heq
      rw [show (Mesos.taken s host k).usedHosts = s.usedHosts.insert host k from rfl,
        AList.lookup_insert] at hlookup
      cases hlookup
      exact hk
    · rw [show (Mesos.taken s hostname k).usedHosts = s.usedHosts.insert hostname k from rfl,
        AList.lookup_insert_ne heq] at hlookup
      exact hs.slots host k' hlookup
  · rw [show (Mesos.taken s hostname k).usedHosts = s.usedHosts.insert hostname k from rfl,
      sumValues_insert hhost]
    omega
  · intro hstarted tid htid
    rcases (AList.mem_insert _).mp htid with rfl | htid
    · exact (AList.mem_insert _).mpr (.inl rfl)
    · exact (AList.mem_insert _).mpr (.inr (hs.before hstarted tid htid))

/-- The scheduler after an offer. -/
def afterOffer (o : Options) (s : Sched) (offer : Offer) : Sched :=
  if Takes o s (sumValues s.usedHosts) offer then
    taken s offer.hostname (min (slots o offer) (o.tasks - sumValues s.usedHosts))
  else s

theorem sumValues_taken {hostname : Str} {k : Int} (h : hostname ∉ s.usedHosts) :
    sumValues (taken s hostname k).usedHosts = k + sumValues s.usedHosts :=
  sumValues_insert h

/-- The loop counts the slots as they are in the table. -/
theorem takeOffers_eq (hcpus : o.cpus ≠ 0) (hmem : o.mem ≠ 0) (s : Sched) (offers : List Offer) :
    ∃ actions, takeOffers o s (sumValues s.usedHosts) offers =
      .ok (offers.foldl (afterOffer o) s, actions) ∧
      ∀ a ∈ actions, ∃ id tasks, a = .launchTasks id tasks := by
  induction offers generalizing s with
  | nil => exact ⟨[], rfl, by simp⟩
  | cons offer offers ih =>
      obtain ⟨actions, hrest, hlaunch⟩ := ih (afterOffer o s offer)
      rw [takeOffers, takeOffer_eq hcpus hmem, List.foldl_cons]
      by_cases htakes : Takes o s (sumValues s.usedHosts) offer
      · rw [if_pos htakes]
        rw [afterOffer, if_pos htakes, sumValues_taken htakes.2.1, add_comm] at hrest
        rw [afterOffer, if_pos htakes]
        simp only [bind, Except.bind, hrest]
        exact ⟨_, rfl, List.forall_mem_cons.mpr ⟨⟨_, _, rfl⟩, hlaunch⟩⟩
      · rw [if_neg htakes]
        rw [afterOffer, if_neg htakes] at hrest
        rw [afterOffer, if_neg htakes]
        simp only [bind, Except.bind, hrest]
        exact ⟨_, rfl, List.forall_mem_cons.mpr ⟨⟨_, _, rfl⟩, hlaunch⟩⟩

theorem Sound.afterOffer (hs : Sound o s) (offer : Offer) :
    Sound o (Mesos.afterOffer o s offer) := by
  unfold Mesos.afterOffer
  split
  · rename_i htakes
    obtain ⟨hroom, hhost, -, hslots⟩ := htakes
    exact hs.taken hhost (by omega) (by omega)
  · exact hs

theorem Sound.afterOffers (hs : Sound o s) (offers : List Offer) :
    Sound o (offers.foldl (Mesos.afterOffer o) s) := by
  induction offers generalizing s with
  | nil => exact hs
  | cons offer offers ih => exact ih (hs.afterOffer offer)

/-- The slots that an offer could bring. -/
def room (o : Options) (s : Sched) (offer : Offer) : Int :=
  if refused o offer = false ∧ offer.hostname ∉ s.usedHosts then max 0 (slots o offer) else 0

theorem room_nonneg (o : Options) (s : Sched) (offer : Offer) : 0 ≤ room o s offer := by
  unfold room
  split
  · exact le_max_left 0 _
  · exact le_refl 0

theorem sumValues_afterOffer (h : sumValues s.usedHosts ≤ o.tasks) (offer : Offer) :
    sumValues (afterOffer o s offer).usedHosts =
      min o.tasks (sumValues s.usedHosts + room o s offer) := by
  by_cases htakes : Takes o s (sumValues s.usedHosts) offer
  · rw [afterOffer, if_pos htakes, sumValues_taken htakes.2.1]
    obtain ⟨hroom, hhost, hrefused, hslots⟩ := htakes
    rw [room, if_pos ⟨hrefused, hhost⟩]
    omega
  · rw [afterOffer, if_neg htakes, room]
    split
    · rename_i hgood
      have hless : ¬(sumValues s.usedHosts < o.tasks ∧ 1 ≤ slots o offer) := by
        intro hboth
        exact htakes ⟨hboth.1, hgood.2, hgood.1, hboth.2⟩
      omega
    · omega

/-- An offer leaves the other machines as they are. -/
theorem room_afterOffer {offer offer' : Offer} (hne : offer'.hostname ≠ offer.hostname) :
    room o (afterOffer o s offer) offer' = room o s offer' := by
  have hhosts : offer'.hostname ∈ (afterOffer o s offer).usedHosts ↔
      offer'.hostname ∈ s.usedHosts := by
    unfold afterOffer
    split
    · refine (AList.mem_insert s.usedHosts).trans ?_
      exact or_iff_right hne
    · rfl
  simp only [room, hhosts]

/-- Offers of distinct machines are taken until there are slots for all processes. -/
theorem sumValues_afterOffers {offers : List Offer} (h : sumValues s.usedHosts ≤ o.tasks)
    (hdistinct : (offers.map Offer.hostname).Nodup) :
    sumValues (offers.foldl (afterOffer o) s).usedHosts =
      min o.tasks (sumValues s.usedHosts + (offers.map (room o s)).sum) := by
  induction offers generalizing s with
  | nil =>
      rw [List.foldl_nil, List.map_nil, List.sum_nil, add_zero]
      exact (min_eq_right h).symm
  | cons offer offers ih =>
      rw [List.map_cons, List.nodup_cons] at hdistinct
      have hafter := sumValues_afterOffer h offer
      have hrest : offers.map (room o (afterOffer o s offer)) = offers.map (room o s) := by
        apply List.map_congr_left
        intro offer' hin
        apply room_afterOffer
        intro heq
        exact hdistinct.1 (List.mem_map.mpr ⟨offer', hin, heq⟩)
      have hle : sumValues (afterOffer o s offer).usedHosts ≤ o.tasks := by
        rw [hafter]
        exact min_le_left _ _
      have hnonneg : 0 ≤ (offers.map (room o s)).sum := by
        apply List.sum_nonneg
        intro k hk
        obtain ⟨offer', -, rfl⟩ := List.mem_map.mp hk
        exact room_nonneg o s offer'
      rw [List.foldl_cons, ih hle hdistinct.2, hrest, hafter, List.map_cons, List.sum_cons]
      omega

theorem registered_afterOffers (offers : List Offer) :
    (offers.foldl (afterOffer o) s).registered = s.registered := by
  induction offers generalizing s with
  | nil => rfl
  | cons offer offers ih =>
      rw [List.foldl_cons, ih]
      unfold afterOffer
      split <;> rfl

theorem resourceOffers_eq (hcpus : o.cpus ≠ 0) (hmem : o.mem ≠ 0) (s : Sched) (now : ℚ)
    (offers : List Offer) :
    ∃ actions, resourceOffers o s now offers =
      .ok (offers.foldl (afterOffer o) { s with lastOfferTime := now }, actions) ∧
      ∀ a ∈ actions, ∃ id tasks, a = .launchTasks id tasks :=
  takeOffers_eq hcpus hmem { s with lastOfferTime := now } offers

/-! ### Reports -/

/-- The tables with the state that a report has for a task. -/
def reported (s : Sched) (tid : Nat) (t : Task) (state : TaskState) (now : ℚ) : Sched :=
  { s with
    taskLaunched := s.taskLaunched.insert tid { t with state := some state, stateTime := now } }

/-- The tables without a task. -/
def dropped (s : Sched) (tid : Nat) (hostname : Str) : Sched :=
  { s with
    usedHosts := s.usedHosts.erase hostname
    usedTasks := s.usedTasks.erase tid
    taskLaunched := s.taskLaunched.erase tid }

/-- The scheduler after a `stop` that returns. -/
def halted (s : Sched) (status : Int) : Sched :=
  if s.stopped then s else { s with stopped := true, status := status }

/-- The tables without a task that is finished; its machine is not given back. -/
def ended (s : Sched) (tid : Nat) : Sched :=
  let s := { s with taskLaunched := s.taskLaunched.erase tid }
  if Dict.pairs s.taskLaunched = [] then halted s 0 else s

/-- `stop` raises nothing once the scheduler has been registered. -/
theorem stop_eq (s : Sched) (status : Int) :
    stop s status = .ok (halted s status) ∨
      stop s status = .error .attributeError ∧ s.registered = false := by
  unfold stop halted
  split
  · exact .inl rfl
  · by_cases hregistered : s.registered = true
    · exact .inl (if_pos hregistered)
    · exact .inr ⟨if_neg hregistered, Bool.eq_false_of_not_eq_true hregistered⟩

/-- What becomes of a finished task; the job may end with it. -/
theorem ended_eq (s : Sched) (tid : Nat) :
    let s' := { s with taskLaunched := s.taskLaunched.erase tid }
    let r : Except Raised (Sched × List Action) :=
      if Dict.pairs s'.taskLaunched = [] then do
        let s ← stop s' 0
        .ok (s, [])
      else .ok (s', [])
    r = .ok (ended s tid, []) ∨ r = .error .attributeError ∧ s.registered = false := by
  intro s' r
  by_cases hlast : Dict.pairs s'.taskLaunched = []
  · rw [show ended s tid = halted s' 0 from if_pos hlast]
    rcases stop_eq s' 0 with hstop | ⟨hstop, hregistered⟩
    · exact .inl ((if_pos hlast).trans (congrArg (· >>= _) hstop))
    · exact .inr ⟨(if_pos hlast).trans (congrArg (· >>= _) hstop), hregistered⟩
  · rw [show ended s tid = s' from if_neg hlast]
    exact .inl (if_neg hlast)

theorem dropTask_eq (hs : Sound o s) {tid : Nat} {hostname : Str} {k : Int}
    (hused : s.usedTasks.lookup tid = some (hostname, k)) (hin : tid ∈ s.taskLaunched) :
    dropTask s tid hostname = .ok (dropped s tid hostname) := by
  have hhost : hostname ∈ s.usedHosts := by
    rw [← AList.lookup_isSome, hs.index.lookup_place hused]
    rfl
  have htask : tid ∈ s.usedTasks := hs.launched tid hin
  simp only [dropTask, popKey, if_pos hhost, if_pos htask, if_pos hin, bind, Except.bind]
  rfl

theorem Sound.reported (hs : Sound o s) {tid : Nat} (hin : tid ∈ s.taskLaunched) (t : Task)
    (state : TaskState) (now : ℚ) : Sound o (Mesos.reported s tid t state now) where
  index := hs.index
  fresh := hs.fresh
  launched tid' htid' := by
    rcases (AList.mem_insert _).mp htid' with rfl | htid'
    · exact hs.launched tid' hin
    · exact hs.launched tid' htid'
  slots := hs.slots
  total := hs.total
  before hstarted tid' htid' := (AList.mem_insert _).mpr (.inr (hs.before hstarted tid' htid'))

theorem Sound.dropped (hs : Sound o s) {tid : Nat} {hostname : Str} {k : Int}
    (hused : s.usedTasks.lookup tid = some (hostname, k)) :
    Sound o (Mesos.dropped s tid hostname) where
  index := hs.index.erase hused
  fresh tid' htid' := hs.fresh tid' (AList.mem_erase.mp htid').2
  launched tid' htid' := by
    obtain ⟨hne, hin⟩ := AList.mem_erase.mp htid'
    exact AList.mem_erase.mpr ⟨hne, hs.launched tid' hin⟩
  slots host k' hlookup := by
    by_cases heq : host = hostname
    · subst heq
      rw [show (Mesos.dropped s tid host).usedHosts = s.usedHosts.erase host from rfl,
        AList.lookup_erase] at hlookup
      cases hlookup
    · rw [show (Mesos.dropped s tid hostname).usedHosts = s.usedHosts.erase hostname from rfl,
        AList.lookup_erase_ne heq] at hlookup
      exact hs.slots host k' hlookup
  total := by
    have hplace := hs.index.lookup_place hused
    have hsum := sumValues_erase hplace
    have hk := hs.slots hostname k hplace
    have htotal := hs.total
    show sumValues (s.usedHosts.erase hostname) ≤ max o.tasks 0
    omega
  before hstarted tid' htid' := by
    obtain ⟨hne, hin⟩ := AList.mem_erase.mp htid'
    exact AList.mem_erase.mpr ⟨hne, hs.before hstarted tid' hin⟩

theorem Sound.halted (hs : Sound o s) (status : Int) : Sound o (Mesos.halted s status) := by
  unfold Mesos.halted
  split
  · exact hs
  · exact hs.congr rfl rfl rfl rfl id

theorem Sound.ended (hs : Sound o s) (hstarted : s.started = true) (tid : Nat) :
    Sound o (Mesos.ended s tid) := by
  have herased : Sound o { s with taskLaunched := s.taskLaunched.erase tid } :=
    { hs with
      launched := fun tid' htid' => hs.launched tid' (AList.mem_erase.mp htid').2
      before := fun h => by
        rw [hstarted] at h
        cases h }
  unfold Mesos.ended
  simp only
  split
  · exact herased.halted 0
  · exact herased

theorem Sound.startMpi (hs : Sound o s) (mpi : Mpirun) : Sound o (Mesos.startMpi o s mpi).1 := by
  unfold Mesos.startMpi
  simp only
  split
  · exact hs.congr rfl rfl rfl rfl id
  · split
    · exact hs.congr rfl rfl rfl rfl id
    · refine hs.congr rfl rfl rfl rfl ?_
      intro h
      cases h

/-- What a report does. -/
inductive Updated (o : Options) (s : Sched) (now : ℚ) (tid : Nat) (mpi : Mpirun) :
    TaskState → Sched → List Action → Prop where
  /-- The task is not among the launched ones. -/
  | unknown {state : TaskState} (h : s.taskLaunched.lookup tid = none) :
      Updated o s now tid mpi state s []
  /-- The last task that was missing runs. -/
  | start {t : Task} (ht : s.taskLaunched.lookup tid = some t)
      (htotal : sumValues s.usedHosts = o.tasks)
      (hready : ready (reported s tid t .running now) = true) :
      Updated o s now tid mpi .running (startMpi o (reported s tid t .running now) mpi).1
        (startMpi o (reported s tid t .running now) mpi).2
  /-- A task is lost before the start: its machine is given back. -/
  | drop {t : Task} {hostname : Str} {k : Int} {state : TaskState}
      (ht : s.taskLaunched.lookup tid = some t)
      (hused : s.usedTasks.lookup tid = some (hostname, k)) (hstarted : s.started = false)
      (hstate : state = .lost ∨ state = .failed) :
      Updated o s now tid mpi state (dropped (reported s tid t state now) tid hostname)
        [.reviveOffers]
  /-- A task is lost after the start: the job is stopped. -/
  | fail {t : Task} {state : TaskState} (ht : s.taskLaunched.lookup tid = some t)
      (hstarted : s.started = true) (hstate : state = .lost ∨ state = .failed) :
      Updated o s now tid mpi state (halted (reported s tid t state now) 1) []
  /-- A task is finished. -/
  | finish {t : Task} (ht : s.taskLaunched.lookup tid = some t) (hstarted : s.started = true) :
      Updated o s now tid mpi .finished (ended (reported s tid t .finished now) tid) []
  /-- The report is only kept. -/
  | keep {t : Task} {state : TaskState} (ht : s.taskLaunched.lookup tid = some t)
      (hwait : state = .running →
        ¬(sumValues s.usedHosts = o.tasks ∧ ready (reported s tid t .running now) = true))
      (hstate : state ≠ .lost ∧ state ≠ .failed ∧ (state = .finished → s.started = false)) :
      Updated o s now tid mpi state (reported s tid t state now) []

/-- A report is taken in, unless it stops a job that was never registered. -/
theorem statusUpdate_eq (hs : Sound o s) (now : ℚ) (tid : Nat) (state : TaskState)
    (mpi : Mpirun) :
    (∃ s' actions, statusUpdate o s now tid state mpi = .ok (s', actions) ∧
      Updated o s now tid mpi state s' actions) ∨
    statusUpdate o s now tid state mpi = .error .attributeError ∧ s.registered = false ∧
      state ≠ .running := by
  cases ht : s.taskLaunched.lookup tid with
  | none => exact .inl ⟨s, [], by rw [statusUpdate, ht], .unknown ht⟩
  | some t =>
      have hin : tid ∈ s.taskLaunched := by
        rw [← AList.lookup_isSome, ht]
        rfl
      obtain ⟨⟨hostname, k⟩, hused⟩ :=
        Option.isSome_iff_exists.mp (AList.lookup_isSome.mpr (hs.launched tid hin))
      have hdrop : ∀ state, dropTask (reported s tid t state now) tid hostname =
          .ok (dropped (reported s tid t state now) tid hostname) := fun state =>
        dropTask_eq (hs.reported hin t state now) hused ((AList.mem_insert _).mpr (.inl rfl))
      simp only [statusUpdate, ht, hused]
      cases state with
      | running =>
          left
          by_cases hstart : sumValues s.usedHosts = o.tasks ∧
              ready (reported s tid t .running now) = true
          · exact ⟨_, _, if_pos hstart, .start ht hstart.1 hstart.2⟩
          · exact ⟨_, _, if_neg hstart, .keep ht (fun _ => hstart) (by simp)⟩
      | lost | failed =>
          by_cases hstarted : s.started = true
          · rcases stop_eq (reported s tid t _ now) 1 with hstop | ⟨hstop, hregistered⟩
            · refine .inl ⟨_, _, (if_pos hstarted).trans (congrArg (· >>= _) hstop), ?_⟩
              exact .fail ht hstarted (by decide)
            · refine .inr ⟨(if_pos hstarted).trans (congrArg (· >>= _) hstop), ?_, by decide⟩
              exact hregistered
          · refine .inl ⟨_, _, (if_neg hstarted).trans (congrArg (· >>= _) (hdrop _)), ?_⟩
            exact .drop ht hused (Bool.eq_false_of_not_eq_true hstarted) (by decide)
      | finished =>
          by_cases hstarted : s.started = true
          · rcases ended_eq (reported s tid t .finished now) tid with hend | ⟨hend, hregistered⟩
            · exact .inl ⟨_, _, (if_pos hstarted).trans hend, .finish ht hstarted⟩
            · exact .inr ⟨(if_pos hstarted).trans hend, hregistered, by decide⟩
          · refine .inl ⟨_, _, if_neg hstarted, .keep ht ?_ ?_⟩
            · intro h
              cases h
            · exact ⟨by decide, by decide, fun _ => Bool.eq_false_of_not_eq_true hstarted⟩
      | staging | starting | killed | error =>
          exact .inl ⟨_, _, rfl, .keep ht (by simp) (by simp)⟩

theorem Sound.updated {s' : Sched} {actions : List Action} {now : ℚ} {tid : Nat} {mpi : Mpirun}
    {state : TaskState} (hs : Sound o s) (h : Updated o s now tid mpi state s' actions) :
    Sound o s' := by
  have hin : ∀ {t}, s.taskLaunched.lookup tid = some t → tid ∈ s.taskLaunched := by
    intro t ht
    rw [← AList.lookup_isSome, ht]
    rfl
  cases h with
  | unknown => exact hs
  | start ht => exact (hs.reported (hin ht) _ _ now).startMpi mpi
  | drop ht hused => exact (hs.reported (hin ht) _ _ now).dropped hused
  | fail ht => exact (hs.reported (hin ht) _ _ now).halted 1
  | finish ht hstarted => exact (hs.reported (hin ht) _ _ now).ended hstarted tid
  | keep ht => exact hs.reported (hin ht) _ _ now

theorem halted_registered (status : Int) : (halted s status).registered = s.registered := by
  unfold halted
  split <;> rfl

theorem Updated.registered {s' : Sched} {actions : List Action} {now : ℚ} {tid : Nat}
    {mpi : Mpirun} {state : TaskState} (h : Updated o s now tid mpi state s' actions) :
    s'.registered = s.registered := by
  cases h with
  | unknown | drop | keep => rfl
  | start =>
      unfold startMpi
      simp only
      split
      · rfl
      · split <;> rfl
  | fail => exact halted_registered 1
  | finish =>
      unfold ended
      simp only
      split
      · exact halted_registered 0
      · rfl

/-! ### Tasks that do not come up -/

/-- `check` gives tasks up, and changes no other. -/
structure Checked (s s' : Sched) : Prop where
  registered : s'.registered = s.registered
  launched : ∀ tid t, s'.taskLaunched.lookup tid = some t → s.taskLaunched.lookup tid = some t
  started : s'.started = s.started
  stopped : s'.stopped = s.stopped
  status : s'.status = s.status

theorem Checked.refl (s : Sched) : Checked s s :=
  ⟨rfl, fun _ _ h => h, rfl, rfl, rfl⟩

theorem Checked.trans {s₁ s₂ : Sched} (h : Checked s s₁) (h' : Checked s₁ s₂) : Checked s s₂ :=
  ⟨h'.registered.trans h.registered, fun tid t ht => h.launched tid t (h'.launched tid t ht),
    h'.started.trans h.started, h'.stopped.trans h.stopped, h'.status.trans h.status⟩

theorem Checked.dropped (s : Sched) (tid : Nat) (hostname : Str) :
    Checked s (Mesos.dropped s tid hostname) := by
  refine ⟨rfl, ?_, rfl, rfl, rfl⟩
  intro tid' t ht
  by_cases heq : tid' = tid
  · subst heq
    rw [show (Mesos.dropped s tid' hostname).taskLaunched = s.taskLaunched.erase tid' from rfl,
      AList.lookup_erase] at ht
    cases ht
  · rwa [show (Mesos.dropped s tid hostname).taskLaunched = s.taskLaunched.erase tid from rfl,
      AList.lookup_erase_ne heq] at ht

theorem checkTasks_ok (now : ℚ) {ts : List (Nat × Task)} (hs : Sound o s)
    (hin : ∀ kv ∈ ts, kv.1 ∈ s.taskLaunched) (hnodup : (ts.map Prod.fst).Nodup) :
    ∃ s' actions, checkTasks now s ts = .ok (s', actions) ∧
      (∀ a ∈ actions, a = .reviveOffers) ∧ Sound o s' ∧ Checked s s' := by
  induction ts generalizing s with
  | nil => exact ⟨s, [], rfl, by simp, hs, .refl s⟩
  | cons kv ts ih =>
      obtain ⟨tid, t⟩ := kv
      rw [List.map_cons, List.nodup_cons] at hnodup
      rw [List.forall_mem_cons] at hin
      rw [checkTasks]
      split
      · obtain ⟨⟨hostname, k⟩, hused⟩ :=
          Option.isSome_iff_exists.mp (AList.lookup_isSome.mpr (hs.launched tid hin.1))
        have hrest : ∀ kv ∈ ts, kv.1 ∈ (dropped s tid hostname).taskLaunched := by
          intro kv hkv
          refine AList.mem_erase.mpr ⟨?_, hin.2 kv hkv⟩
          intro heq
          exact hnodup.1 (List.mem_map.mpr ⟨kv, hkv, heq⟩)
        obtain ⟨s', actions, hcheck, hrevive, hs', hchecked⟩ :=
          ih (hs.dropped hused) hrest hnodup.2
        simp only [hused, dropTask_eq hs hused hin.1, hcheck, bind, Except.bind]
        exact ⟨s', _, rfl, List.forall_mem_cons.mpr ⟨rfl, hrevive⟩, hs',
          (Checked.dropped s tid hostname).trans hchecked⟩
      · exact ih hs hin.2 hnodup.2

theorem check_ok (hs : Sound o s) (now : ℚ) :
    ∃ s' actions, check s now = .ok (s', actions) ∧
      (∀ a ∈ actions, a = .reviveOffers) ∧ Sound o s' ∧ Checked s s' := by
  apply checkTasks_ok now hs
  · intro kv hkv
    rw [← AList.lookup_isSome, Dict.mem_pairs.mp hkv]
    rfl
  · exact Dict.pairs_nodup s.taskLaunched

/-- The main loop changes no table. -/
theorem retry_eq (s : Sched) (now delay : ℚ) :
    ∃ nextTry lastOfferTime actions, retry s now delay =
      ({ s with nextTry := nextTry, lastOfferTime := lastOfferTime }, actions) ∧
      ∀ a ∈ actions, a = .reviveOffers := by
  unfold retry
  simp only
  split
  · split
    · exact ⟨0, now, _, rfl, by simp⟩
    · exact ⟨0, s.lastOfferTime, _, rfl, by simp⟩
  · split
    · exact ⟨s.nextTry, now, _, rfl, by simp⟩
    · exact ⟨s.nextTry, s.lastOfferTime, _, rfl, by simp⟩

/-! ### Runs -/

/-- What an event does. -/
inductive Stepped (o : Options) (s : Sched) : Event → Sched → List Action → Prop where
  | registered : Stepped o s .registered { s with registered := true } []
  | offers (now : ℚ) (offers : List Offer) (actions : List Action)
      (hlaunch : ∀ a ∈ actions, ∃ id tasks, a = .launchTasks id tasks) :
      Stepped o s (.resourceOffers now offers)
        (offers.foldl (afterOffer o) { s with lastOfferTime := now }) actions
  | update {now : ℚ} {tid : Nat} {state : TaskState} {mpi : Mpirun} {s' : Sched}
      {actions : List Action} (h : Updated o s now tid mpi state s' actions) :
      Stepped o s (.statusUpdate now tid state mpi) s' actions
  | check {now : ℚ} {s' : Sched} {actions : List Action} (h : check s now = .ok (s', actions))
      (hrevive : ∀ a ∈ actions, a = .reviveOffers) (hs : Sound o s') (hchecked : Checked s s') :
      Stepped o s (.check now) s' actions
  | retry (now delay nextTry lastOfferTime : ℚ) (actions : List Action)
      (hrevive : ∀ a ∈ actions, a = .reviveOffers) :
      Stepped o s (.retry now delay)
        { s with nextTry := nextTry, lastOfferTime := lastOfferTime } actions
  | stop (cause : Cause) : Stepped o s (.stop cause) (halted s cause.status) []

/-- No callback raises an exception, except that a job cannot be stopped before the scheduler is
    registered. -/
theorem step_eq (hcpus : o.cpus ≠ 0) (hmem : o.mem ≠ 0) (hs : Sound o s) (e : Event) :
    (∃ s' actions, step o s e = .ok (s', actions) ∧ Stepped o s e s' actions) ∨
    step o s e = .error .attributeError ∧ s.registered = false := by
  cases e with
  | registered => exact .inl ⟨_, _, rfl, .registered⟩
  | resourceOffers now offers =>
      obtain ⟨actions, hoffers, hlaunch⟩ := resourceOffers_eq hcpus hmem s now offers
      exact .inl ⟨_, actions, hoffers, .offers now offers actions hlaunch⟩
  | statusUpdate now tid state mpi =>
      rcases statusUpdate_eq hs now tid state mpi with ⟨s', actions, hupdate, hupdated⟩ | herror
      · exact .inl ⟨s', actions, hupdate, .update hupdated⟩
      · exact .inr ⟨herror.1, herror.2.1⟩
  | check now =>
      obtain ⟨s', actions, hcheck, hrevive, hs', hchecked⟩ := check_ok hs now
      exact .inl ⟨s', actions, hcheck, .check hcheck hrevive hs' hchecked⟩
  | retry now delay =>
      obtain ⟨nextTry, lastOfferTime, actions, hretry, hrevive⟩ := retry_eq s now delay
      exact .inl ⟨_, actions, congrArg Except.ok hretry,
        .retry now delay nextTry lastOfferTime actions hrevive⟩
  | stop cause =>
      rcases stop_eq s cause.status with hstop | ⟨hstop, hregistered⟩
      · exact .inl ⟨_, _, congrArg (· >>= _) hstop, .stop cause⟩
      · exact .inr ⟨congrArg (· >>= _) hstop, hregistered⟩

theorem step_cases (hcpus : o.cpus ≠ 0) (hmem : o.mem ≠ 0) (hs : Sound o s) {e : Event}
    {s' : Sched} {actions : List Action} (h : step o s e = .ok (s', actions)) :
    Stepped o s e s' actions := by
  rcases step_eq hcpus hmem hs e with ⟨s₁, actions₁, hstep, hstepped⟩ | ⟨herror, -⟩
  · rw [hstep] at h
    cases h
    exact hstepped
  · rw [herror] at h
    cases h

theorem Sound.stepped {e : Event} {s' : Sched} {actions : List Action} (hs : Sound o s)
    (h : Stepped o s e s' actions) : Sound o s' := by
  cases h with
  | registered => exact hs.congr rfl rfl rfl rfl id
  | offers now offers =>
      have hclock : Sound o { s with lastOfferTime := now } := hs.congr rfl rfl rfl rfl id
      exact hclock.afterOffers offers
  | update hupdated => exact hs.updated hupdated
  | check _ _ hs' => exact hs'
  | retry => exact hs.congr rfl rfl rfl rfl id
  | stop cause => exact hs.halted cause.status

/-- A registered scheduler stays registered. -/
theorem Stepped.registered_eq {e : Event} {s' : Sched} {actions : List Action}
    (h : Stepped o s e s' actions) (hregistered : s.registered = true) :
    s'.registered = true := by
  cases h with
  | registered => rfl
  | offers now offers => rwa [registered_afterOffers]
  | update hupdated => rwa [hupdated.registered]
  | check _ _ _ hchecked => rwa [hchecked.registered]
  | retry => exact hregistered
  | stop cause => rwa [halted_registered]

theorem next_eq {e : Event} {s' : Sched} {actions : List Action}
    (h : step o s e = .ok (s', actions)) : next o s e = some s' := by
  rw [next, h]

/-- The scheduler goes on from an event only if no exception left the callback. -/
theorem next_cases (hcpus : o.cpus ≠ 0) (hmem : o.mem ≠ 0) (hs : Sound o s) {e : Event}
    {s' : Sched} (h : next o s e = some s') : ∃ actions, Stepped o s e s' actions := by
  unfold next at h
  split at h
  · rename_i actions hstep
    cases h
    exact ⟨actions, step_cases hcpus hmem hs hstep⟩
  · cases h

theorem Sound.of_run (hcpus : o.cpus ≠ 0) (hmem : o.mem ≠ 0) {events : List Event}
    (hrun : run (Mesos.next o) {} events = some s) : Sound o s := by
  refine run_invariant (fun s _ _ hs hnext => ?_) Sound.empty hrun
  obtain ⟨actions, hstepped⟩ := next_cases hcpus hmem hs hnext
  exact hs.stepped hstepped

/-- A job of two processes. -/
def twoTasks : Options := { tasks := 2 }

/-- A machine that has room for both. -/
def machineA : Offer :=
  { id := lit "1", hostname := lit "a", slaveId := lit "A"
    resources := [(lit "cpus", 2), (lit "mem", 200)], attributes := [] }

/-- A machine that has room for one. -/
def machineB : Offer :=
  { id := lit "2", hostname := lit "b", slaveId := lit "B"
    resources := [(lit "cpus", 1), (lit "mem", 200)], attributes := [] }

/-- However the offers of one call are shuffled, the same number of slots is taken: all that the
    offers have, up to one for each process. -/
theorem offers_total (hcpus : o.cpus ≠ 0) (hmem : o.mem ≠ 0) (htasks : 0 ≤ o.tasks)
    {events : List Event} (hrun : run (next o) {} events = some s) (now : ℚ)
    {offers shuffled : List Offer} (hperm : shuffled.Perm offers)
    (hdistinct : (offers.map Offer.hostname).Nodup) :
    ∃ s' actions, resourceOffers o s now shuffled = .ok (s', actions) ∧
      sumValues s'.usedHosts =
        min o.tasks (sumValues s.usedHosts + (offers.map (room o s)).sum) := by
  obtain ⟨actions, hoffers, -⟩ := resourceOffers_eq hcpus hmem s now shuffled
  have htotal : sumValues s.usedHosts ≤ o.tasks := by
    have hmax := (Sound.of_run hcpus hmem hrun).total
    rwa [max_eq_left htasks] at hmax
  have hclock : offers.map (room o { s with lastOfferTime := now }) = offers.map (room o s) := rfl
  refine ⟨_, actions, hoffers, ?_⟩
  rw [sumValues_afterOffers (s := { s with lastOfferTime := now }) htotal
    ((hperm.map _).nodup_iff.mpr hdistinct), (hperm.map _).sum_eq, hclock]

theorem offers_total_two :
    ∃ s' actions, resourceOffers twoTasks {} 0 [machineB, machineA] = .ok (s', actions) ∧
      sumValues s'.usedHosts =
        min 2 (sumValues ({} : Sched).usedHosts +
          ([machineA, machineB].map (room twoTasks {})).sum) :=
  have hrun : run (next twoTasks) {} [] = some {} := rfl
  offers_total (by decide) (by decide) (by decide) hrun 0 (List.Perm.swap _ _ _) (by decide)

/-- The scheduler once it is registered. -/
def newSched : Sched := { registered := true }

/-- The first machine is taken for both processes. -/
theorem run_machineA : run (next twoTasks) {} [.registered, .resourceOffers 0 [machineA]] =
    some (taken newSched (lit "a") 2) := by
  have hslots : slots twoTasks machineA = 2 := by decide +kernel
  have htakes : Takes twoTasks newSched (sumValues newSched.usedHosts) machineA := by
    decide +kernel
  obtain ⟨actions, hstep, -⟩ :=
    resourceOffers_eq (o := twoTasks) (by decide) (by decide) newSched 0 [machineA]
  have hafter : [machineA].foldl (afterOffer twoTasks) newSched = taken newSched (lit "a") 2 := by
    rw [List.foldl_cons, afterOffer, if_pos htakes, hslots]
    rfl
  have hregister : step twoTasks {} .registered = .ok (newSched, []) := rfl
  rw [run_cons, next_eq hregister, Option.bind_some, run_cons,
    next_eq (e := .resourceOffers 0 [machineA]) hstep, Option.bind_some, run_nil]
  exact congrArg some hafter

end Paracel.Mesos
