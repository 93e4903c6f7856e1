import NovaCache.Util.PoolInvariant

/-! Every job that the pool accepts is executed once, whatever the schedule: the pool's own
steps come to an end, and they end only when nothing is left to do. -/
namespace NovaCache.Util
variable {config : PoolConfig} {system next : System config} {action : Action config}

/-! What the pool has still to do. A call pays for the job that it queues, and a job for
its way through a worker. -/

def Call.work : Call → Nat
  | .entering => 6
  | .notifying => 2
  | .returned _ => 0

def Worker.work : Worker → Nat
  | .locking => 2
  | .waiting => 1
  | .starting _ => 4
  | .running _ => 3
  | .returned => 0

def Shutdown.work (threadCount : Nat) : Shutdown → Nat
  | .idle => 0
  | .notifying => 2 * threadCount + 3
  | .joining worker => threadCount - worker + 2
  | .returned => 0

def System.work (system : System config) : Nat :=
  (system.calls.map Call.work).sum + 3 * system.pool.jobs.length + ∑ worker, (system.pool.workers worker).work +
    system.shutdown.work config.threadCount

theorem work_answer {call : Nat} {old : Call} (found : system.calls[call]? = some old) (next : Call) :
    (system.answer call next).work + old.work = system.work + next.work := by
  have changed := Tally.sum_set Call.work found next
  dsimp only [System.work,System.answer]
  omega

theorem work_move {worker : Fin config.threadCount} {old : Worker} (found : system.pool.workers worker = old)
    (next : Worker) : (system.move worker next).work + old.work = system.work + next.work := by
  have changed := Tally.sum_update Worker.work system.pool.workers worker next
  rw [found] at changed
  dsimp only [System.work,System.move,ThreadPool.move]
  omega

theorem notifyAll_work (pool : ThreadPool config) :
    ∑ worker, (pool.notifyAll.workers worker).work ≤ ∑ worker, (pool.workers worker).work + config.threadCount := by
  have each : ∀ worker, (pool.notifyAll.workers worker).work ≤ (pool.workers worker).work + 1 := by
    intro worker
    dsimp only [ThreadPool.notifyAll]
    split
    · next waiting =>
      rw [waiting]
      exact Nat.le_refl _
    · exact Nat.le_succ _
  calc ∑ worker, (pool.notifyAll.workers worker).work
      ≤ ∑ worker, ((pool.workers worker).work + 1) := Finset.sum_le_sum fun worker _ => each worker
    _ = ∑ worker, (pool.workers worker).work + config.threadCount := by
      rw [Finset.sum_add_distrib,Finset.sum_const,Finset.card_univ,Fintype.card_fin,smul_eq_mul,mul_one]

/-- Each step of the pool's own leaves less to do. -/
theorem work_step (own : action.own = true) (step : Step action system next) : next.work < system.work := by
  cases step with
  | call | wake | stop | again => cases own
  | refuse entering =>
    have paid : _ + 6 = _ + 0 := work_answer entering (.returned false)
    omega
  | accept entering =>
    have paid : _ + 6 = _ + 2 := work_answer entering .notifying
    dsimp only [System.work,System.answer] at paid ⊢
    rw [List.length_append,List.length_singleton]
    omega
  | notify notifying =>
    have paid : _ + 2 = _ + 0 := work_answer notifying (.returned true)
    omega
  | @notifyOne _ _ worker notifying waiting =>
    have woken : _ + 1 = _ + 2 := work_move waiting .locking
    have paid : _ + 2 = _ + 0 := @work_answer _ (system.move worker .locking) _ _ notifying (.returned true)
    omega
  | wait locking =>
    have paid : _ + 2 = _ + 1 := work_move locking .waiting
    omega
  | leave locking =>
    have paid : _ + 2 = _ + 0 := work_move locking .returned
    omega
  | @take _ _ job _ locking queue =>
    have paid : _ + 2 = _ + 4 := work_move locking (.starting job)
    dsimp only [System.work,System.move,ThreadPool.move] at paid ⊢
    rw [queue,List.length_cons] at paid ⊢
    omega
  | @start _ worker job starting =>
    have paid : _ + 4 = _ + 3 := work_move starting (.running job)
    change (system.move worker (.running job)).work < _
    omega
  | @finish _ worker _ running =>
    have paid : _ + 3 = _ + 2 := work_move running .locking
    change (system.move worker .locking).work < _
    omega
  | notifyAll notifying =>
    have woken := notifyAll_work system.pool
    have same : system.pool.notifyAll.jobs = system.pool.jobs := rfl
    dsimp only [System.work]
    rw [notifying,same]
    dsimp only [Shutdown.work]
    omega
  | @join _ worker joining =>
    have inside := worker.isLt
    dsimp only [System.work]
    rw [joining]
    dsimp only [Shutdown.work]
    omega
  | discard joined =>
    dsimp only [System.work]
    rw [joined]
    dsimp only [Shutdown.work,List.length_nil]
    omega

/-- No step of the pool's own is possible. -/
def AtRest (system : System config) : Prop := ∀ action : Action config, action.own = true → act action system = none

theorem AtRest.answered (rest : AtRest system) {call : Nat} {state : Call} (found : system.calls[call]? = some state) :
    ∃ accepted, state = .returned accepted := by
  cases state with
  | entering => cases (if_pos found).symm.trans (rest (.submit call) rfl)
  | returned accepted => exact ⟨accepted,rfl⟩
  | notifying =>
    have silent : ∀ woken, notifyOne call system woken = none := fun woken =>
      (if_pos found).symm.trans (rest (.notifyOne call woken) rfl)
    -- either a worker waits, or there is nobody to wake
    by_cases nobody : ∀ worker, system.pool.workers worker ≠ .waiting
    · cases (if_pos nobody).symm.trans (silent none)
    · obtain ⟨worker,waiting⟩ := not_forall_not.mp nobody
      cases (if_pos waiting).symm.trans (silent (some worker))

theorem AtRest.idle (rest : AtRest system) (worker : Fin config.threadCount) :
    system.pool.workers worker = .waiting ∨ system.pool.workers worker = .returned := by
  cases state : system.pool.workers worker with
  | waiting => exact Or.inl rfl
  | returned => exact Or.inr rfl
  | locking => cases (if_pos state).symm.trans (rest (.lock worker) rfl)
  | starting job =>
    have none := rest (.start worker) rfl
    simp [act,state] at none
  | running job =>
    have none := rest (.finish worker) rfl
    simp [act,state] at none

/-- `shutdown` never hangs in a join: no worker sleeps behind the notification. -/
theorem AtRest.closed (rest : AtRest system) (closing : Closing system) :
    system.shutdown = .idle ∨ system.shutdown = .returned := by
  cases state : system.shutdown with
  | idle => exact Or.inl rfl
  | returned => exact Or.inr rfl
  | notifying => cases (if_pos state).symm.trans (rest .notifyAll rfl)
  | joining count =>
    have stopping : system.pool.stopping = true := closing.flag.mpr (by rw [state]; nofun)
    rcases Nat.lt_or_eq_of_le (closing.joined count state).1 with inside | last
    · rcases rest.idle ⟨count,inside⟩ with waiting | returned
      · cases state.symm.trans (closing.asleep stopping _ waiting)
      · have none := rest .join rfl
        simp [act,state,inside,returned] at none
    · cases (if_pos (last ▸ state)).symm.trans (rest .discard rfl)

theorem AtRest.emptied (rest : AtRest system) (sound : Sound system) : system.pool.jobs = [] := by
  by_contra left
  rcases sound.awake left with ⟨worker,awake⟩ | ⟨call,notifying⟩ | notifying
  · exact left (sound.closing.left worker ((rest.idle worker).resolve_left awake)).2
  · obtain ⟨_,⟨⟩⟩ := rest.answered notifying
  · rcases rest.closed sound.closing with idle | returned
    · cases notifying.symm.trans idle
    · cases notifying.symm.trans returned

/-- With nothing queued and nobody at work, the jobs that were accepted are finished. -/
theorem Accounted.complete (accounted : Accounted system) (empty : system.pool.jobs = [])
    (idle : ∀ worker, system.pool.workers worker = .waiting ∨ system.pool.workers worker = .returned) :
    (system.started : Multiset Nat) = system.submitted ∧ (system.finished : Multiset Nat) = system.submitted := by
  have nobody : ∀ worker, (system.pool.workers worker).assigned = 0 ∧ (system.pool.workers worker).executing = 0 := by
    intro worker
    rcases idle worker with state | state
    · rw [state]
      exact ⟨rfl,rfl⟩
    · rw [state]
      exact ⟨rfl,rfl⟩
  have taken := accounted.taken
  have started := accounted.started
  rw [Finset.sum_eq_zero fun worker _ => (nobody worker).1,add_zero] at taken
  rw [Finset.sum_eq_zero fun worker _ => (nobody worker).2,add_zero] at started
  rw [accounted.queue,empty,List.append_nil]
  exact ⟨taken.symm,started.symm.trans taken.symm⟩

theorem Accounted.once (accounted : Accounted system) {jobs : List Nat} {job : Nat}
    (all : (jobs : Multiset Nat) = system.submitted) (accepted : system.calls[job]? = some (.returned true)) :
    jobs.count job = 1 := by
  have queued := (accounted.accepted job).mpr (Or.inr accepted)
  rw [(Multiset.coe_eq_coe.mp all).count_eq]
  exact List.count_eq_one_of_mem accounted.distinct queued

theorem Accounted.called_once (accounted : Accounted system) : system.started.Nodup := by
  have all : ((system.taken ++ system.pool.jobs : List Nat) : Multiset Nat).Nodup :=
    Multiset.coe_nodup.mpr (accounted.queue ▸ accounted.distinct)
  rw [← Multiset.coe_add,accounted.taken,add_assoc] at all
  exact Multiset.coe_nodup.mp (Multiset.nodup_of_le (Multiset.le_add_right _ _) all)

/-- A single worker calls the jobs in the order in which they were queued. -/
theorem Sound.single (sound : Sound system) (one : config.threadCount = 1) : system.started <+: system.submitted := by
  have initial : ∀ past later, system.started = past ++ later → past <+: system.submitted := by
    intro past
    -- one job after the other: what was queued before a job was called before it
    induction past using List.reverseRecOn with
    | nil => exact fun _ _ => List.nil_prefix
    | append_singleton past job ih =>
      intro later called
      rw [List.append_assoc,List.singleton_append] at called
      obtain ⟨rest,queue⟩ := ih _ called
      have distinct := sound.accounted.called_once
      rw [called] at distinct
      have fresh : job ∉ past := fun member => (List.nodup_append.mp distinct).2.2 job member job List.mem_cons_self rfl
      have queued : job ∈ past ++ rest := by
        rw [queue]
        exact sound.accounted.queued (called ▸ List.mem_append_right _ List.mem_cons_self)
      obtain ⟨front,back,here⟩ := List.append_of_mem ((List.mem_append.mp queued).resolve_left fresh)
      have before := sound.ordered past job later (past ++ front) back called (by rw [← queue,here,List.append_assoc])
      have nothing : front = [] := by
        rw [one,Nat.lt_one_iff,List.length_eq_zero_iff,List.filter_eq_nil_iff] at before
        refine List.eq_nil_iff_forall_not_mem.mpr fun other member => ?_
        have earlier : other ∈ past := by simpa using before other (List.mem_append_right _ member)
        have different := sound.accounted.distinct
        rw [← queue,here] at different
        exact (List.nodup_append.mp different).2.2 other earlier other (List.mem_append_left _ member) rfl
      rw [here,nothing] at queue
      exact ⟨back,by rw [← queue,List.append_assoc]; rfl⟩
  exact initial _ [] (List.append_nil _).symm

theorem shutdown_goes_on (begun : system.shutdown ≠ .idle) (step : Step action system next) :
    next.shutdown ≠ .idle := by
  cases step with
  | stop | notifyAll | join | discard => nofun
  | _ => exact begun

/-- Behind every schedule the queue is within its limit, jobs have left it in the order in which
they came, and were called with fewer than `threadCount` of the earlier ones still to be called.
A job that was accepted has been called at most once, and exactly once, to its end, when
`shutdown` has returned; one that was refused is never called. From there on the pool can take
only so many steps of its own; it can take them until none is possible, and then every job that
was accepted has been executed and a `shutdown` that had begun has returned. -/
theorem pool_delivers (config : PoolConfig) (actions : List (Action config)) (system : System config)
    (ran : Schedule.run act actions (.initial config) = some system) :
    system.pool.jobs.length ≤ config.maxQueueSize ∧
      (system.taken <+: system.submitted ∧ InOrder system ∧
        (config.threadCount = 1 → system.started <+: system.submitted)) ∧
      (∀ call : Nat, system.calls[call]? = some (.returned true) → system.started.count call ≤ 1 ∧
        (system.shutdown = .returned → system.started.count call = 1 ∧ system.finished.count call = 1)) ∧
      (∀ call : Nat, system.calls[call]? = some (.returned false) → call ∉ system.started) ∧
      (∃ more last, (∀ action ∈ more, action.own = true) ∧ Schedule.run act more system = some last ∧ AtRest last) ∧
      ∀ more last, (∀ action ∈ more, action.own = true) → Schedule.run act more system = some last →
        more.length ≤ system.work ∧ (AtRest last →
          (∀ call : Nat, last.calls[call]? = some (.returned true) →
            last.started.count call = 1 ∧ last.finished.count call = 1) ∧
          (system.shutdown ≠ .idle → last.shutdown = .returned)) := by
  have sound : Sound system := run_keeps (sound_initial config) (fun _ _ _ step before => before.step step) ran
  have drops : ∀ action (system next : System config), Action.own action = true → act action system = some next →
      next.work < system.work := fun _ _ _ own acted => work_step own (act_step acted)
  refine ⟨sound.accounted.bound,⟨⟨_,sound.accounted.queue.symm⟩,sound.ordered,sound.single⟩,?_,?_,
    Schedule.run_rests _ drops system,?_⟩
  · intro call accepted
    refine ⟨List.nodup_iff_count_le_one.mp sound.accounted.called_once call,fun ended => ?_⟩
    have returned := sound.closing.ended ended
    have empty := (sound.closing.left ⟨0,Nat.pos_of_ne_zero config.workers⟩ (returned _)).2
    obtain ⟨started,finished⟩ := sound.accounted.complete empty fun worker => Or.inr (returned worker)
    exact ⟨sound.accounted.once started accepted,sound.accounted.once finished accepted⟩
  · intro call refused called
    have queued := (sound.accounted.accepted call).mp (sound.accounted.queued called)
    rw [refused] at queued
    simp at queued
  · intro more last own further
    have bounded := Schedule.run_bounded _ drops further own
    refine ⟨by omega,fun rest => ⟨fun call accepted => ?_,fun begun => ?_⟩⟩
    · have after : Sound last :=
        Schedule.run_invariant (fun _ _ _ acted before => before.step (act_step acted)) further sound
      obtain ⟨started,finished⟩ := after.accounted.complete (rest.emptied after) rest.idle
      exact ⟨after.accounted.once started accepted,after.accounted.once finished accepted⟩
    · have closing : Closing last :=
        Schedule.run_invariant (fun _ _ _ acted before => before.step (act_step acted)) further sound.closing
      have going := Schedule.run_invariant
        (fun _ _ _ acted before => shutdown_goes_on before (act_step acted)) further begun
      exact (rest.closed closing).resolve_left going

def pair : PoolConfig := ⟨2,1,by decide,by decide⟩

def pair.first : Fin pair.threadCount := ⟨0,by decide⟩

def pair.second : Fin pair.threadCount := ⟨1,by decide⟩

/-- One job is accepted and another refused, `shutdown` begins before the first is called. -/
def draining : List (Action pair) :=
  [.call,.call,.submit 0,.submit 1,.notifyOne 0 none,.lock pair.first,.stop,.lock pair.second,.notifyAll,
    .start pair.first,.finish pair.first,.lock pair.first,.join,.join,.discard]

theorem pool_delivers_draining : ∃ system, Schedule.run act draining (.initial pair) = some system ∧
    system.calls = [.returned true,.returned false] ∧ system.shutdown = .returned ∧
    system.finished.count 0 = 1 ∧ 1 ∉ system.started := by
  have observed : (Schedule.run act draining (.initial pair)).map (fun system => (system.calls,system.shutdown)) =
      some ([.returned true,.returned false],.returned) := by decide +kernel
  obtain ⟨system,ran,seen⟩ := Option.map_eq_some_iff.mp observed
  obtain ⟨calls,ended⟩ := Prod.mk.inj seen
  obtain ⟨_,_,once,never,_⟩ := pool_delivers pair draining system ran
  exact ⟨system,ran,calls,ended,((once 0 (by rw [calls]; rfl)).2 ended).2,never 1 (by rw [calls]; rfl)⟩

/-- Both workers have taken a job before either has called it. -/
def overtaking : List (Action pair) :=
  [.call,.call,.submit 0,.lock pair.first,.submit 1,.lock pair.second,.start pair.second,.start pair.first]

theorem pool_starts_out_of_order : ∃ system, Schedule.run act overtaking (.initial pair) = some system ∧
    system.submitted = [0,1] ∧ system.started = [1,0] ∧ ¬ system.started.Sublist system.submitted := by
  have observed : (Schedule.run act overtaking (.initial pair)).map (fun system => (system.submitted,system.started)) =
      some ([0,1],[1,0]) := by decide +kernel
  obtain ⟨system,ran,seen⟩ := Option.map_eq_some_iff.mp observed
  obtain ⟨submitted,started⟩ := Prod.mk.inj seen
  refine ⟨system,ran,submitted,started,?_⟩
  rw [submitted,started]
  decide

end NovaCache.Util
