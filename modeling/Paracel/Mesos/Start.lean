import Paracel.Kv
import Paracel.Mesos.Reservations

/-!
# The start and the end of a job

`mpirun` is started when there is a slot for every process, on machines whose
tasks were all last reported as running. The scheduler leaves with status 0 only
after every one of these tasks was reported as finished.
-/

namespace Paracel.Mesos

open Index StepSystem

variable {o : Options} {s : Sched}

/-- The last report on a task. -/
def lastUpdate (tid : Nat) (events : List Event) : Option TaskState :=
  events.foldl (fun last e =>
    match e with
    | .statusUpdate _ tid' state _ => if tid' = tid then some state else last
    | _ => last) none

theorem lastUpdate_concat (tid : Nat) (events : List Event) (e : Event) :
    lastUpdate tid (events ++ [e]) =
      match e with
      | .statusUpdate _ tid' state _ => if tid' = tid then some state else lastUpdate tid events
      | _ => lastUpdate tid events := by
  rw [lastUpdate, List.foldl_append, List.foldl_cons, List.foldl_nil]
  rfl

theorem exists_of_lastUpdate {tid : Nat} {events : List Event} {state : TaskState}
    (h : lastUpdate tid events = some state) :
    ∃ now mpi, Event.statusUpdate now tid state mpi ∈ events := by
  induction events using List.reverseRecOn with
  | nil => cases h
  | append_singleton events e ih =>
      rw [lastUpdate_concat] at h
      have hold : lastUpdate tid events = some state →
          ∃ now mpi, Event.statusUpdate now tid state mpi ∈ events ++ [e] := by
        intro h
        obtain ⟨now, mpi, hin⟩ := ih h
        exact ⟨now, mpi, List.mem_append_left [e] hin⟩
      cases e with
      | statusUpdate now tid' state' mpi =>
          by_cases heq : tid' = tid
          · subst heq
            simp only [if_true] at h
            cases h
            exact ⟨now, mpi, List.mem_append_right events List.mem_cons_self⟩
          · simp only [heq, if_false] at h
            exact hold h
      | registered | resourceOffers | check | retry | stop => exact hold h

/-! ### The states that are kept -/

theorem launched_afterOffers {offers : List Offer} {tid : Nat} {t : Task}
    (h : (offers.foldl (afterOffer o) s).taskLaunched.lookup tid = some t) :
    s.taskLaunched.lookup tid = some t ∨ t.state = none := by
  induction offers generalizing s with
  | nil => exact .inl h
  | cons offer offers ih =>
      rcases ih h with h | h
      · unfold afterOffer at h
        split at h
        · by_cases heq : tid = s.id
          · subst heq
            rw [taken, AList.lookup_insert] at h
            cases h
            exact .inr rfl
          · rw [taken, AList.lookup_insert_ne heq] at h
            exact .inl h
        · exact .inl h
      · exact .inr h

@[simp] theorem startMpi_taskLaunched (mpi : Mpirun) :
    (startMpi o s mpi).1.taskLaunched = s.taskLaunched := by
  unfold startMpi
  simp only
  split
  · rfl
  · split <;> rfl

@[simp] theorem startMpi_usedHosts (mpi : Mpirun) :
    (startMpi o s mpi).1.usedHosts = s.usedHosts := by
  unfold startMpi
  simp only
  split
  · rfl
  · split <;> rfl

@[simp] theorem startMpi_usedTasks (mpi : Mpirun) :
    (startMpi o s mpi).1.usedTasks = s.usedTasks := by
  unfold startMpi
  simp only
  split
  · rfl
  · split <;> rfl

@[simp] theorem halted_taskLaunched (status : Int) :
    (halted s status).taskLaunched = s.taskLaunched := by
  unfold halted
  split <;> rfl

@[simp] theorem ended_taskLaunched (tid : Nat) :
    (ended s tid).taskLaunched = s.taskLaunched.erase tid := by
  unfold ended
  simp only
  split
  · exact halted_taskLaunched 0
  · rfl

/-- A report changes the state of its task only. -/
theorem Updated.launched {s' : Sched} {actions : List Action} {now : ℚ} {tid : Nat}
    {mpi : Mpirun} {state : TaskState} (h : Updated o s now tid mpi state s' actions) {tid' : Nat}
    {t' : Task} (ht' : s'.taskLaunched.lookup tid' = some t') :
    (tid' = tid ∧ t'.state = some state) ∨
      (tid' ≠ tid ∧ s.taskLaunched.lookup tid' = some t') := by
  have hreported : ∀ {t state}, (reported s tid t state now).taskLaunched.lookup tid' = some t' →
      (tid' = tid ∧ t'.state = some state) ∨
        (tid' ≠ tid ∧ s.taskLaunched.lookup tid' = some t') := by
    intro t state ht'
    by_cases heq : tid' = tid
    · subst heq
      rw [reported, AList.lookup_insert] at ht'
      cases ht'
      exact .inl ⟨rfl, rfl⟩
    · rw [reported, AList.lookup_insert_ne heq] at ht'
      exact .inr ⟨heq, ht'⟩
  have herased : ∀ {t state},
      ((reported s tid t state now).taskLaunched.erase tid).lookup tid' = some t' →
      (tid' = tid ∧ t'.state = some state) ∨
        (tid' ≠ tid ∧ s.taskLaunched.lookup tid' = some t') := by
    intro t state ht'
    by_cases heq : tid' = tid
    · subst heq
      rw [AList.lookup_erase] at ht'
      cases ht'
    · rw [AList.lookup_erase_ne heq] at ht'
      exact hreported ht'
  cases h with
  | unknown hnone =>
      refine .inr ⟨?_, ht'⟩
      rintro rfl
      rw [hnone] at ht'
      cases ht'
  | start ht =>
      rw [startMpi_taskLaunched] at ht'
      exact hreported ht'
  | drop ht => exact herased ht'
  | fail ht =>
      rw [halted_taskLaunched] at ht'
      exact hreported ht'
  | finish ht =>
      rw [ended_taskLaunched] at ht'
      exact herased ht'
  | keep ht => exact hreported ht'

/-- The state of a launched task is what was last reported on it. -/
theorem launched_state (hcpus : o.cpus ≠ 0) (hmem : o.mem ≠ 0) {events : List Event}
    (hrun : run (next o) {} events = some s) {tid : Nat} {t : Task}
    (ht : s.taskLaunched.lookup tid = some t) :
    t.state = none ∨ t.state = lastUpdate tid events := by
  induction events using List.reverseRecOn generalizing s t with
  | nil =>
      cases hrun
      simp at ht
  | append_singleton events e ih =>
      obtain ⟨m, hm, hnext⟩ := run_split hrun
      have hnext : next o m e = some s := by simpa using hnext
      rw [lastUpdate_concat]
      obtain ⟨actions, hstepped⟩ := next_cases hcpus hmem (Sound.of_run hcpus hmem hm) hnext
      cases hstepped with
      | registered | retry => exact ih hm ht
      | offers now offers =>
          rcases launched_afterOffers ht with hold | hnone
          · exact ih hm hold
          · exact .inl hnone
      | @update now tid' state mpi _ _ hupdated =>
          rcases hupdated.launched ht with ⟨rfl, hstate⟩ | ⟨hne, hold⟩
          · simp only [if_true]
            exact .inr hstate
          · simp only [if_neg hne.symm]
            exact ih hm hold
      | check _ _ _ hchecked => exact ih hm (hchecked.launched tid t ht)
      | stop cause =>
          rw [halted_taskLaunched] at ht
          exact ih hm ht

/-! ### The start -/

/-- What `start_mpi` does: it runs `mpirun` on the machines taken, and publishes a command for
    each of them or none at all. -/
theorem startMpi_actions (mpi : Mpirun) :
    ∃ commands, (startMpi o s mpi).2 =
        [.mpirun (Dict.pairs s.usedHosts) o.tasks, .broadcast commands] ∧
      (commands = ∅ ∨ ∀ p ∈ Dict.pairs s.usedHosts, p.1 ∈ commands) := by
  unfold startMpi
  cases mpi.slaves with
  | none => exact ⟨∅, rfl, .inl rfl⟩
  | some slaves =>
      simp only
      split
      · exact ⟨∅, rfl, .inl rfl⟩
      · rename_i hlength
        refine ⟨_, rfl, .inr ?_⟩
        intro p hp
        rw [not_not] at hlength
        have hfst : (((Dict.pairs s.usedHosts).map Prod.fst).zip slaves).map Prod.fst =
            (Dict.pairs s.usedHosts).map Prod.fst :=
          List.map_fst_zip (by rw [List.length_map, hlength])
        have hin : p.1 ∈ (((Dict.pairs s.usedHosts).map Prod.fst).zip slaves).map Prod.fst := by
          rw [hfst]
          exact List.mem_map.mpr ⟨p, hp, rfl⟩
        obtain ⟨⟨host, slave⟩, hmem, heq⟩ := List.mem_map.mp hin
        have hlookup := Kvs.lookup_foldl_insert_of_nodup
          (by rw [hfst]; exact Dict.pairs_nodup s.usedHosts) ∅ hmem
        rw [← AList.lookup_isSome, ← heq, hlookup]
        rfl

theorem mem_launched_of_used {m : Sched} (hm : Sound o m) (hstarted : m.started = false)
    {tid : Nat} {p : Str × Int} (h : m.usedTasks.lookup tid = some p) : tid ∈ m.taskLaunched := by
  apply hm.before hstarted
  rw [← AList.lookup_isSome, h]
  rfl

/-- Only a report that a task runs starts `mpirun`, and then on the machines taken. -/
theorem Stepped.of_mpirun {e : Event} {s' : Sched} {actions : List Action}
    (h : Stepped o s e s' actions) {hosts : List (Str × Int)} {np : Int}
    (hact : .mpirun hosts np ∈ actions) :
    ∃ now tid mpi t, e = .statusUpdate now tid .running mpi ∧
      s.taskLaunched.lookup tid = some t ∧ sumValues s.usedHosts = o.tasks ∧
      ready (reported s tid t .running now) = true ∧
      s' = (startMpi o (reported s tid t .running now) mpi).1 ∧
      hosts = Dict.pairs s.usedHosts ∧ np = o.tasks ∧
      ∃ commands, actions = [.mpirun hosts np, .broadcast commands] ∧
        (commands = ∅ ∨ ∀ p ∈ hosts, p.1 ∈ commands) := by
  cases h with
  | registered | stop => cases hact
  | offers now offers _ hlaunch =>
      obtain ⟨id, tasks, heq⟩ := hlaunch _ hact
      cases heq
  | check _ hrevive => cases hrevive _ hact
  | retry _ _ _ _ _ hrevive => cases hrevive _ hact
  | @update now tid state mpi _ _ hupdated =>
      cases hupdated with
      | unknown | fail | finish | keep => cases hact
      | drop => cases List.mem_singleton.mp hact
      | @start t ht htotal hready =>
          obtain ⟨commands, hactions, hcommands⟩ :=
            startMpi_actions (o := o) (s := reported s tid t .running now) mpi
          rw [hactions] at hact ⊢
          rcases List.mem_pair.mp hact with heq | heq
          · cases heq
            exact ⟨now, tid, mpi, t, rfl, ht, htotal, hready, rfl, rfl, rfl, commands, rfl,
              hcommands⟩
          · cases heq

theorem sum_pairs (d : Dict Str Int) : ((Dict.pairs d).map Prod.snd).sum = sumValues d := by
  rw [sumValues, Dict.pairs, List.map_map]
  rfl

/-- When all launched tasks run, the last report on each says so. -/
theorem lastUpdate_of_ready (hcpus : o.cpus ≠ 0) (hmem : o.mem ≠ 0) {events : List Event}
    {s' : Sched} (hrun : run (next o) {} events = some s')
    (hlaunched : s'.taskLaunched = s.taskLaunched) (hready : ready s = true) {tid : Nat}
    (htid : tid ∈ s.taskLaunched) : lastUpdate tid events = some .running := by
  obtain ⟨t, ht⟩ := Option.isSome_iff_exists.mp (AList.lookup_isSome.mpr htid)
  have hstate : t.state = some .running :=
    of_decide_eq_true (List.all_eq_true.mp hready _ (Dict.mem_pairs.mpr ht))
  rw [← hlaunched] at ht
  have hlast := launched_state hcpus hmem hrun ht
  rw [hstate] at hlast
  rcases hlast with hnone | hlast
  · cases hnone
  · exact hlast.symm

/-- MPI is started only with a slot for every process, on distinct machines; every launched task
    was last reported as running, and at the first start every machine has such a task. -/
theorem mpirun_start (hcpus : o.cpus ≠ 0) (hmem : o.mem ≠ 0) {events : List Event}
    (hrun : run (next o) {} events = some s) {e : Event} {s' : Sched} {actions : List Action}
    (hstep : step o s e = .ok (s', actions)) {hosts : List (Str × Int)} {np : Int}
    (hact : .mpirun hosts np ∈ actions) :
    np = o.tasks ∧ (hosts.map Prod.snd).sum = np ∧ (hosts.map Prod.fst).Nodup ∧
      (∀ tid ∈ s'.taskLaunched, lastUpdate tid (events ++ [e]) = some .running) ∧
      (s.started = false → ∀ p ∈ hosts, ∃ tid, s'.usedTasks.lookup tid = some p ∧
        lastUpdate tid (events ++ [e]) = some .running) ∧
      ∃ commands, actions = [.mpirun hosts np, .broadcast commands] ∧
        (commands = ∅ ∨ ∀ p ∈ hosts, p.1 ∈ commands) := by
  have hsound := Sound.of_run hcpus hmem hrun
  obtain ⟨now, tid, mpi, t, rfl, ht, htotal, hready, rfl, rfl, rfl, hcommands⟩ :=
    (step_cases hcpus hmem hsound hstep).of_mpirun hact
  have hrun' := run_concat hrun (next_eq hstep)
  have hrunning : ∀ tid' ∈ (reported s tid t .running now).taskLaunched,
      lastUpdate tid' (events ++ [.statusUpdate now tid .running mpi]) = some .running :=
    fun tid' => lastUpdate_of_ready hcpus hmem hrun' (startMpi_taskLaunched mpi) hready
  refine ⟨rfl, (sum_pairs _).trans htotal, Dict.pairs_nodup _, ?_, ?_, hcommands⟩
  · intro tid' htid'
    rw [startMpi_taskLaunched] at htid'
    exact hrunning tid' htid'
  · intro hstarted p hp
    obtain ⟨tid', hused⟩ := (hsound.index.lookup_iff p.1 p.2).mp (Dict.mem_pairs.mp hp)
    refine ⟨tid', by rw [startMpi_usedTasks]; exact hused, ?_⟩
    apply hrunning
    exact (AList.mem_insert _).mpr (.inr (mem_launched_of_used hsound hstarted hused))

/-- What `mpirun` prints for the only machine. -/
def oneLine : Mpirun := { slaves := some [lit "hydra_pmi_proxy"] }

theorem mpirun_start_one :
    2 = twoTasks.tasks ∧ ([(lit "a", 2)].map Prod.snd).sum = (2 : Int) ∧
      ([(lit "a", (2 : Int))].map Prod.fst).Nodup ∧
      (∀ tid ∈ (reported (taken newSched (lit "a") 2) 0 { id := 0 } .running 0).taskLaunched,
        lastUpdate tid [.registered, .resourceOffers 0 [machineA],
          .statusUpdate 0 0 .running oneLine] = some .running) ∧
      ((taken newSched (lit "a") 2).started = false → ∀ p ∈ [(lit "a", (2 : Int))],
        ∃ tid, (taken newSched (lit "a") 2).usedTasks.lookup tid = some p ∧
          lastUpdate tid [.registered, .resourceOffers 0 [machineA],
            .statusUpdate 0 0 .running oneLine] = some .running) ∧
      ∃ commands, (startMpi twoTasks (taken newSched (lit "a") 2) oneLine).2 =
          [.mpirun [(lit "a", 2)] 2, .broadcast commands] ∧
        (commands = ∅ ∨ ∀ p ∈ [(lit "a", (2 : Int))], p.1 ∈ commands) :=
  have hstep : step twoTasks (taken newSched (lit "a") 2) (.statusUpdate 0 0 .running oneLine) =
      .ok (startMpi twoTasks (reported (taken newSched (lit "a") 2) 0 { id := 0 } .running 0)
        oneLine) := rfl
  mpirun_start (by decide) (by decide) run_machineA hstep List.mem_cons_self

/-! ### The end -/

/-- The task was reported as finished once MPI had been started. -/
def Finished (o : Options) (events : List Event) (tid : Nat) : Prop :=
  ∃ pre now mpi post m, events = pre ++ .statusUpdate now tid .finished mpi :: post ∧
    run (next o) {} pre = some m ∧ m.started = true

theorem Finished.append {events : List Event} {tid : Nat} (h : Finished o events tid)
    (more : List Event) : Finished o (events ++ more) tid := by
  obtain ⟨pre, now, mpi, post, m, rfl, hrun, hstarted⟩ := h
  refine ⟨pre, now, mpi, post ++ more, m, ?_, hrun, hstarted⟩
  rw [List.append_assoc, List.cons_append]

/-- What holds of the end of a job: a task of the job is launched or was finished, and status 0
    stands only behind the end of all of them. -/
structure Ends (o : Options) (events : List Event) (s : Sched) : Prop where
  total : s.started = true → sumValues s.usedHosts = o.tasks
  finished : ∀ tid ∈ s.usedTasks, tid ∈ s.taskLaunched ∨ Finished o events tid
  exit : s.stopped = true → s.status = 0 →
    s.started = true ∧ ∀ tid ∈ s.usedTasks, Finished o events tid

/-- The tables and the flags are as before, and more has happened. -/
theorem Ends.congr {events more : List Event} {s' : Sched} (h : Ends o events s)
    (hhosts : s'.usedHosts = s.usedHosts) (htasks : s'.usedTasks = s.usedTasks)
    (hlaunched : ∀ tid, tid ∈ s.taskLaunched → tid ∈ s'.taskLaunched)
    (hstarted : s'.started = s.started) (hstopped : s'.stopped = s.stopped)
    (hstatus : s'.status = s.status) : Ends o (events ++ more) s' where
  total hs := by
    rw [hhosts]
    rw [hstarted] at hs
    exact h.total hs
  finished tid htid := by
    rw [htasks] at htid
    rcases h.finished tid htid with hin | hfin
    · exact .inl (hlaunched tid hin)
    · exact .inr (hfin.append more)
  exit hs hzero := by
    rw [hstopped] at hs
    rw [hstatus] at hzero
    obtain ⟨hstart, hall⟩ := h.exit hs hzero
    rw [hstarted, htasks]
    exact ⟨hstart, fun tid htid => (hall tid htid).append more⟩

/-- Before the start there is nothing to show. -/
theorem Ends.of_not_started {events : List Event} (hs : Sound o s) (hstarted : s.started = false)
    (hexit : s.stopped = true → s.status ≠ 0) : Ends o events s where
  total h := by
    rw [hstarted] at h
    cases h
  finished tid htid := .inl (hs.before hstarted tid htid)
  exit hstop hzero := absurd hzero (hexit hstop)

/-- A job that is full takes no offer. -/
theorem afterOffers_full (h : o.tasks ≤ sumValues s.usedHosts) (offers : List Offer) :
    offers.foldl (afterOffer o) s = s := by
  induction offers with
  | nil => rfl
  | cons offer offers ih =>
      have hnot : ¬Takes o s (sumValues s.usedHosts) offer := by
        intro htakes
        have hroom := htakes.1
        omega
      rw [List.foldl_cons, afterOffer, if_neg hnot, ih]

theorem afterOffers_flags (offers : List Offer) :
    (offers.foldl (afterOffer o) s).started = s.started ∧
      (offers.foldl (afterOffer o) s).stopped = s.stopped ∧
      (offers.foldl (afterOffer o) s).status = s.status := by
  induction offers generalizing s with
  | nil => exact ⟨rfl, rfl, rfl⟩
  | cons offer offers ih =>
      have hflags : (afterOffer o s offer).started = s.started ∧
          (afterOffer o s offer).stopped = s.stopped ∧
          (afterOffer o s offer).status = s.status := by
        unfold afterOffer
        split
        · exact ⟨rfl, rfl, rfl⟩
        · exact ⟨rfl, rfl, rfl⟩
      obtain ⟨h₁, h₂, h₃⟩ := ih (s := afterOffer o s offer)
      exact ⟨h₁.trans hflags.1, h₂.trans hflags.2.1, h₃.trans hflags.2.2⟩

theorem Ends.afterOffers {events : List Event} {offers : List Offer} (h : Ends o events s)
    (hs : Sound o (offers.foldl (afterOffer o) s)) :
    Ends o events (offers.foldl (afterOffer o) s) := by
  by_cases hstarted : s.started = true
  · rwa [afterOffers_full (le_of_eq (h.total hstarted).symm)]
  · obtain ⟨h₁, h₂, h₃⟩ := afterOffers_flags (o := o) (s := s) offers
    apply Ends.of_not_started hs (h₁.trans (Bool.eq_false_of_not_eq_true hstarted))
    rw [h₂, h₃]
    intro hstop hzero
    exact hstarted (h.exit hstop hzero).1

/-- `check` gives up no task that is not reported as starting. -/
theorem checkTasks_eq_self (now : ℚ) {ts : List (Nat × Task)}
    (h : ∀ kv ∈ ts, kv.2.state ≠ some .starting) : checkTasks now s ts = .ok (s, []) := by
  induction ts with
  | nil => rfl
  | cons kv ts ih =>
      obtain ⟨tid, t⟩ := kv
      rw [List.forall_mem_cons] at h
      rw [checkTasks, if_neg (fun hlate => h.1 hlate.1), ih h.2]

/-- Stopping with another status leaves the ends as they are. -/
theorem Ends.halted {events : List Event} (h : Ends o events s) {status : Int}
    (hne : status ≠ 0) : Ends o events (Mesos.halted s status) := by
  unfold Mesos.halted
  split
  · exact h
  · exact { h with exit := fun _ hzero => absurd hzero hne }

theorem startMpi_flags (mpi : Mpirun) :
    (s.started = true → (startMpi o s mpi).1.started = true) ∧
      (startMpi o s mpi).1.stopped = s.stopped ∧ (startMpi o s mpi).1.status = s.status := by
  unfold startMpi
  simp only
  split
  · exact ⟨id, rfl, rfl⟩
  · split
    · exact ⟨id, rfl, rfl⟩
    · exact ⟨fun _ => rfl, rfl, rfl⟩

theorem Ends.updated {events : List Event} {now : ℚ} {tid : Nat} {state : TaskState}
    {mpi : Mpirun} {s' : Sched} {actions : List Action} (hs : Sound o s)
    (hrun : run (next o) {} events = some s) (h : Ends o events s)
    (hupdated : Updated o s now tid mpi state s' actions) :
    Ends o (events ++ [.statusUpdate now tid state mpi]) s' := by
  have hreported : ∀ t, Ends o (events ++ [.statusUpdate now tid state mpi])
      (reported s tid t state now) := by
    intro t
    refine h.congr rfl rfl ?_ rfl rfl rfl
    intro tid' htid'
    exact (AList.mem_insert _).mpr (.inr htid')
  have hsound := hs.updated hupdated
  cases hupdated with
  | unknown => exact h.congr rfl rfl (fun _ h => h) rfl rfl rfl
  | keep => exact hreported _
  | fail => exact (hreported _).halted (by decide)
  | @start t ht htotal =>
      obtain ⟨hstarted, hstopped, hstatus⟩ :=
        startMpi_flags (o := o) (s := reported s tid t .running now) mpi
      constructor
      · intro _
        rw [startMpi_usedHosts]
        exact htotal
      · rw [startMpi_usedTasks, startMpi_taskLaunched]
        exact (hreported t).finished
      · rw [hstopped, hstatus, startMpi_usedTasks]
        intro hstop hzero
        obtain ⟨hold, hall⟩ := (hreported t).exit hstop hzero
        exact ⟨hstarted hold, hall⟩
  | drop ht hused hstarted =>
      apply Ends.of_not_started hsound hstarted
      intro hstop hzero
      have hold := (h.exit hstop hzero).1
      rw [hstarted] at hold
      cases hold
  | @finish t ht hstarted =>
      have hnow : Finished o (events ++ [.statusUpdate now tid .finished mpi]) tid :=
        ⟨events, now, mpi, [], s, rfl, hrun, hstarted⟩
      have herased : Ends o (events ++ [.statusUpdate now tid .finished mpi])
          { reported s tid t .finished now with
            taskLaunched := (reported s tid t .finished now).taskLaunched.erase tid } := by
        refine { hreported t with finished := ?_ }
        intro tid' htid'
        by_cases heq : tid' = tid
        · exact .inr (heq ▸ hnow)
        · rcases (hreported t).finished tid' htid' with hin | hfin
          · exact .inl (AList.mem_erase.mpr ⟨heq, hin⟩)
          · exact .inr hfin
      unfold ended
      simp only
      split
      · rename_i hempty
        unfold Mesos.halted
        split
        · exact herased
        · refine { herased with exit := fun _ _ => ⟨hstarted, ?_⟩ }
          intro tid' htid'
          rcases herased.finished tid' htid' with hin | hfin
          · obtain ⟨t', ht'⟩ := Option.isSome_iff_exists.mp (AList.lookup_isSome.mpr hin)
            have hmem := Dict.mem_pairs.mpr ht'
            rw [hempty] at hmem
            cases hmem
          · exact hfin
      · exact herased

/-- No report has a task as starting; `mesos_executor.py` sends none. -/
def NeverStarting (events : List Event) : Prop :=
  ∀ now tid mpi, Event.statusUpdate now tid .starting mpi ∉ events

theorem ends_of_run (hcpus : o.cpus ≠ 0) (hmem : o.mem ≠ 0) {events : List Event}
    (hevents : NeverStarting events) (hrun : run (next o) {} events = some s) :
    Ends o events s := by
  induction events using List.reverseRecOn generalizing s with
  | nil =>
      cases hrun
      exact Ends.of_not_started Sound.empty rfl (by simp)
  | append_singleton events e ih =>
      obtain ⟨m, hm, hnext⟩ := run_split hrun
      have hnext : next o m e = some s := by simpa using hnext
      have hsound := Sound.of_run hcpus hmem hm
      have hevents' : NeverStarting events := fun now tid mpi h =>
        hevents now tid mpi (List.mem_append_left [e] h)
      have hends := ih hevents' hm
      obtain ⟨actions, hstepped⟩ := next_cases hcpus hmem hsound hnext
      cases hstepped with
      | registered | retry => exact hends.congr rfl rfl (fun _ h => h) rfl rfl rfl
      | offers now offers =>
          have hclock : Ends o (events ++ [.resourceOffers now offers])
              { m with lastOfferTime := now } :=
            hends.congr rfl rfl (fun _ h => h) rfl rfl rfl
          exact hclock.afterOffers (Sound.of_run hcpus hmem hrun)
      | update hupdated => exact hends.updated hsound hm hupdated
      | @check now _ _ hcheck =>
          have hnot : ∀ kv ∈ Dict.pairs m.taskLaunched, kv.2.state ≠ some .starting := by
            intro kv hkv hstate
            have hlast := launched_state hcpus hmem hm (Dict.mem_pairs.mp hkv)
            rw [hstate] at hlast
            rcases hlast with hnone | hlast
            · cases hnone
            · obtain ⟨now', mpi, hin⟩ := exists_of_lastUpdate hlast.symm
              exact hevents' now' kv.1 mpi hin
          rw [check, checkTasks_eq_self now hnot] at hcheck
          cases hcheck
          exact hends.congr rfl rfl (fun _ h => h) rfl rfl rfl
      | stop cause =>
          have hmore : Ends o (events ++ [.stop cause]) m :=
            hends.congr rfl rfl (fun _ h => h) rfl rfl rfl
          apply hmore.halted
          cases cause <;> decide

/-- The scheduler leaves with status 0 only after MPI was started on a slot for every process and
    the task on every machine was then reported as finished. -/
theorem exit_zero (hcpus : o.cpus ≠ 0) (hmem : o.mem ≠ 0) {events : List Event}
    (hevents : NeverStarting events) (hrun : run (next o) {} events = some s)
    (hstop : s.stopped = true) (hzero : s.status = 0) :
    sumValues s.usedHosts = o.tasks ∧ ∀ host k, s.usedHosts.lookup host = some k →
      ∃ tid, s.usedTasks.lookup tid = some (host, k) ∧ Finished o events tid := by
  have hends := ends_of_run hcpus hmem hevents hrun
  obtain ⟨hstarted, hall⟩ := hends.exit hstop hzero
  refine ⟨hends.total hstarted, ?_⟩
  intro host k hlookup
  obtain ⟨tid, hused⟩ := ((Sound.of_run hcpus hmem hrun).index.lookup_iff host k).mp hlookup
  refine ⟨tid, hused, hall tid ?_⟩
  rw [← AList.lookup_isSome, hused]
  rfl

theorem exit_zero_one :
    ∃ s, run (next twoTasks) {} [.registered, .resourceOffers 0 [machineA],
          .statusUpdate 0 0 .running oneLine, .statusUpdate 0 0 .finished { slaves := none }] =
        some s ∧ s.stopped = true ∧
      sumValues s.usedHosts = twoTasks.tasks ∧ ∀ host k, s.usedHosts.lookup host = some k →
        ∃ tid, s.usedTasks.lookup tid = some (host, k) ∧
          Finished twoTasks [.registered, .resourceOffers 0 [machineA],
            .statusUpdate 0 0 .running oneLine,
            .statusUpdate 0 0 .finished { slaves := none }] tid := by
  have hstart := run_concat run_machineA
    (next_eq (show step twoTasks (taken newSched (lit "a") 2) (.statusUpdate 0 0 .running oneLine) =
      .ok (startMpi twoTasks (reported (taken newSched (lit "a") 2) 0 { id := 0 } .running 0)
        oneLine) from rfl))
  have hend := run_concat hstart
    (next_eq (show step twoTasks _ (.statusUpdate 0 0 .finished { slaves := none }) =
      .ok (_, []) from rfl))
  refine ⟨_, hend, rfl, exit_zero (by decide) (by decide) ?_ hend rfl rfl⟩
  intro now tid mpi hin
  simp at hin

/-! ### The start is reached -/

/-- A task is reported as running. -/
def ReportedRunning (tid : Nat) (reports : List Event) : Prop :=
  ∃ now mpi, Event.statusUpdate now tid .running mpi ∈ reports

/-- The event reports a task as running, and `mpirun` would print a line for each of `hosts`
    machines. -/
def RunningReport (hosts : Nat) (e : Event) : Prop :=
  ∃ now tid mpi slaves, e = .statusUpdate now tid .running mpi ∧ mpi.slaves = some slaves ∧
    slaves.length = hosts

theorem startMpi_started {mpi : Mpirun} {slaves : List Str} (hslaves : mpi.slaves = some slaves)
    (hlength : slaves.length = (Dict.pairs s.usedHosts).length) :
    (startMpi o s mpi).1.started = true := by
  rw [startMpi, hslaves]
  simp only [ne_eq, hlength, not_true_eq_false, if_false]

/-- A report that a task runs keeps the machines and the set of tasks, and a job that has started
    stays so. -/
theorem Updated.of_running {s' : Sched} {actions : List Action} {now : ℚ} {tid : Nat}
    {mpi : Mpirun} (h : Updated o s now tid mpi .running s' actions) :
    s'.usedHosts = s.usedHosts ∧ (∀ tid', tid' ∈ s'.taskLaunched ↔ tid' ∈ s.taskLaunched) ∧
      (s.started = true → s'.started = true) := by
  have hkeys : ∀ {t}, s.taskLaunched.lookup tid = some t → ∀ tid',
      tid' ∈ (reported s tid t .running now).taskLaunched ↔ tid' ∈ s.taskLaunched := by
    intro t ht tid'
    refine (AList.mem_insert s.taskLaunched).trans (or_iff_right_of_imp ?_)
    rintro rfl
    rw [← AList.lookup_isSome, ht]
    rfl
  cases h with
  | unknown => exact ⟨rfl, fun _ => Iff.rfl, id⟩
  | @start t ht =>
      refine ⟨startMpi_usedHosts mpi, ?_, ?_⟩
      · rw [startMpi_taskLaunched]
        exact hkeys ht
      · exact (startMpi_flags (s := reported s tid t .running now) mpi).1
  | drop _ _ _ hstate | fail _ _ hstate => rcases hstate with h | h <;> cases h
  | keep ht => exact ⟨rfl, hkeys ht, id⟩

/-- As long as the job has not started, some task has not been reported as running. -/
theorem started_or_missing (hs : Sound o s) (htotal : sumValues s.usedHosts = o.tasks)
    (hlaunched : ∃ tid, tid ∈ s.taskLaunched) {reports : List Event}
    (hreports : ∀ e ∈ reports, RunningReport (Dict.pairs s.usedHosts).length e) :
    ∃ s', run (next o) s reports = some s' ∧ Sound o s' ∧ s'.usedHosts = s.usedHosts ∧
      (∀ tid, tid ∈ s'.taskLaunched ↔ tid ∈ s.taskLaunched) ∧
      (s'.started = true ∨
        (∀ tid t, s'.taskLaunched.lookup tid = some t → ReportedRunning tid reports →
          t.state = some .running) ∧
        ∃ tid ∈ s.taskLaunched, ¬ReportedRunning tid reports) := by
  induction reports using List.reverseRecOn with
  | nil =>
      obtain ⟨tid, htid⟩ := hlaunched
      refine ⟨s, rfl, hs, rfl, fun _ => Iff.rfl, .inr ⟨?_, tid, htid, ?_⟩⟩
      · rintro tid t - ⟨now, mpi, hin⟩
        cases hin
      · rintro ⟨now, mpi, hin⟩
        cases hin
  | append_singleton reports e ih =>
      obtain ⟨m, hm, hsound, hhosts, hkeys, hm'⟩ :=
        ih fun e' he' => hreports e' (List.mem_append_left [e] he')
      obtain ⟨now, tid, mpi, slaves, rfl, hslaves, hlength⟩ :=
        hreports e (List.mem_append_right reports List.mem_cons_self)
      obtain ⟨s', actions, hstep, hupdated⟩ :=
        (statusUpdate_eq hsound now tid .running mpi).resolve_right fun h => h.2.2 rfl
      obtain ⟨hhosts', hkeys', hstays⟩ := hupdated.of_running
      refine ⟨s', run_concat hm (next_eq (e := .statusUpdate now tid .running mpi) hstep),
        hsound.updated hupdated, hhosts'.trans hhosts,
        fun tid' => (hkeys' tid').trans (hkeys tid'), ?_⟩
      rcases hm' with hstarted | ⟨hrunning, tid₀, htid₀, hmissing⟩
      · exact .inl (hstays hstarted)
      have hsplit : ∀ {tid'}, ReportedRunning tid' (reports ++ [.statusUpdate now tid .running mpi])
          → ReportedRunning tid' reports ∨ tid' = tid := by
        rintro tid' ⟨now', mpi', hin⟩
        rcases List.mem_append.mp hin with hin | hin
        · exact .inl ⟨now', mpi', hin⟩
        · cases List.mem_singleton.mp hin
          exact .inr rfl
      have hstates : ∀ tid' t', s'.taskLaunched.lookup tid' = some t' →
          ReportedRunning tid' (reports ++ [.statusUpdate now tid .running mpi]) →
          t'.state = some .running := by
        intro tid' t' ht' hreported
        rcases hupdated.launched ht' with ⟨-, hstate⟩ | ⟨hne, hold⟩
        · exact hstate
        · rcases hsplit hreported with hreported | heq
          · exact hrunning tid' t' hold hreported
          · exact absurd heq hne
      by_cases hmore : ∃ tid' ∈ s.taskLaunched,
          ¬ReportedRunning tid' (reports ++ [.statusUpdate now tid .running mpi])
      · exact .inr ⟨hstates, hmore⟩
      -- every task is reported now, so this report was the missing one
      left
      push Not at hmore
      have htid : tid₀ = tid := (hsplit (hmore tid₀ htid₀)).resolve_left hmissing
      subst htid
      cases hupdated with
      | unknown hnone =>
          have hin := (hkeys tid₀).mpr htid₀
          rw [← AList.lookup_isSome, hnone] at hin
          cases hin
      | @start t ht =>
          apply startMpi_started hslaves
          show slaves.length = (Dict.pairs m.usedHosts).length
          rw [hhosts, hlength]
      | drop _ _ _ hstate | fail _ _ hstate => rcases hstate with h | h <;> cases h
      | @keep t _ ht hwait =>
          refine absurd ⟨?_, ?_⟩ (hwait rfl)
          · rw [hhosts, htotal]
          · refine List.all_eq_true.mpr fun kv hkv => decide_eq_true ?_
            have hlookup := Dict.mem_pairs.mp hkv
            apply hstates kv.1 kv.2 hlookup
            apply hmore
            rw [← hkeys, ← hkeys', ← AList.lookup_isSome]
            rw [hlookup]
            rfl

/-- A job that has slots before the start has a launched task. -/
theorem exists_launched (hs : Sound o s) (hstarted : s.started = false)
    (hpos : 1 ≤ sumValues s.usedHosts) : ∃ tid, tid ∈ s.taskLaunched := by
  obtain ⟨p, hp⟩ : ∃ p, p ∈ Dict.pairs s.usedHosts := by
    apply List.exists_mem_of_ne_nil
    intro hempty
    have hnil : s.usedHosts.entries = [] := List.map_eq_nil_iff.mp hempty
    rw [sumValues, hnil] at hpos
    exact absurd hpos (by decide)
  obtain ⟨tid, hused⟩ := (hs.index.lookup_iff p.1 p.2).mp (Dict.mem_pairs.mp hp)
  exact ⟨tid, mem_launched_of_used hs hstarted hused⟩

/-- Once there is a slot for every process, the job starts when the last of its tasks is reported
    as running, in whatever order the reports come and however often. -/
theorem start_reached (hcpus : o.cpus ≠ 0) (hmem : o.mem ≠ 0) {events : List Event}
    (hrun : run (next o) {} events = some s) (htasks : 1 ≤ o.tasks)
    (htotal : sumValues s.usedHosts = o.tasks) (hstarted : s.started = false)
    {reports : List Event}
    (hreports : ∀ e ∈ reports, RunningReport (Dict.pairs s.usedHosts).length e)
    (hall : ∀ tid ∈ s.taskLaunched, ReportedRunning tid reports) :
    ∃ s', run (next o) s reports = some s' ∧ s'.started = true := by
  have hs := Sound.of_run hcpus hmem hrun
  have hlaunched := exists_launched hs hstarted (htotal ▸ htasks)
  obtain ⟨s', hs', -, -, -, hstart | ⟨-, tid, htid, hmissing⟩⟩ :=
    started_or_missing hs htotal hlaunched hreports
  · exact ⟨s', hs', hstart⟩
  · exact absurd (hall tid htid) hmissing

theorem start_reached_one :
    ∃ s', run (next twoTasks) (taken newSched (lit "a") 2) [.statusUpdate 0 0 .running oneLine] =
      some s' ∧ s'.started = true := by
  refine start_reached (by decide) (by decide) run_machineA (by decide) rfl rfl ?_ ?_
  · intro e he
    exact ⟨0, 0, oneLine, _, List.mem_singleton.mp he, rfl, rfl⟩
  · intro tid htid
    rcases (AList.mem_insert _).mp htid with rfl | htid
    · exact ⟨0, oneLine, List.mem_cons_self⟩
    · cases htid

end Paracel.Mesos
