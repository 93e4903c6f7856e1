import NovaCache.Tally
import NovaCache.Util.ThreadPool
import Mathlib.Algebra.Order.BigOperators.Group.Finset
import Mathlib.Data.Multiset.Basic

/-! What holds of the pool behind every schedule: where each job is, how far `shutdown` has
come, and that nobody sleeps while there is work. -/
namespace NovaCache.Util
variable {config : PoolConfig} {system next : System config} {action : Action config}

/-- The job that a worker has taken and not called yet. -/
def Worker.assigned : Worker → Multiset Nat
  | .starting job => {job}
  | _ => 0

/-- The job that a worker is in. -/
def Worker.executing : Worker → Multiset Nat
  | .running job => {job}
  | _ => 0

/-- A worker that has returned found the queue empty for good; `shutdown` joins only such
workers, and only before it notifies them do workers wait for more. -/
structure Closing (system : System config) : Prop where
  left : ∀ worker, system.pool.workers worker = .returned → system.pool.stopping = true ∧ system.pool.jobs = []
  flag : system.pool.stopping = true ↔ system.shutdown ≠ .idle
  joined : ∀ count, system.shutdown = .joining count →
    count ≤ config.threadCount ∧ ∀ worker, worker.val < count → system.pool.workers worker = .returned
  ended : system.shutdown = .returned → ∀ worker, system.pool.workers worker = .returned
  asleep : system.pool.stopping = true → ∀ worker, system.pool.workers worker = .waiting →
    system.shutdown = .notifying

/-- A job is queued, taken, called and finished in turn, in one place at a time. -/
structure Accounted (system : System config) : Prop where
  queue : system.submitted = system.taken ++ system.pool.jobs
  taken : (system.taken : Multiset Nat) = system.started + ∑ worker, (system.pool.workers worker).assigned
  started : (system.started : Multiset Nat) = system.finished + ∑ worker, (system.pool.workers worker).executing
  distinct : system.submitted.Nodup
  accepted : ∀ call, call ∈ system.submitted ↔
    system.calls[call]? = some .notifying ∨ system.calls[call]? = some (.returned true)
  bound : system.pool.jobs.length ≤ config.maxQueueSize

theorem move_self (system : System config) (worker : Fin config.threadCount) (next : Worker) :
    (system.move worker next).pool.workers worker = next := Function.update_self ..

theorem move_other (system : System config) {worker other : Fin config.threadCount} (different : other ≠ worker)
    (next : Worker) : (system.move worker next).pool.workers other = system.pool.workers other :=
  Function.update_of_ne different ..

theorem answer_calls {call other : Nat} {old next : Call} (found : system.calls[call]? = some old) :
    (system.answer call next).calls[other]? = if call = other then some next else system.calls[other]? := by
  change (system.calls.set call next)[other]? = _
  rw [List.getElem?_set,if_pos (List.getElem?_eq_some_iff.mp found).1]

theorem closing_initial (config : PoolConfig) : Closing (.initial config) where
  left _ returned := by cases returned
  flag := by simp [System.initial,ThreadPool.new]
  joined _ joining := by cases joining
  ended returned := by cases returned
  asleep stopping := by cases stopping

/-- A worker that has not returned moves on. -/
theorem Closing.move (closing : Closing system) {worker : Fin config.threadCount} (next : Worker)
    (before : system.pool.workers worker ≠ .returned)
    (leaves : next = .returned → system.pool.stopping = true ∧ system.pool.jobs = [])
    (sleeps : next = .waiting → system.pool.stopping = false) : Closing (system.move worker next) where
  left other returned := by
    by_cases same : other = worker
    · subst same
      exact leaves ((move_self system other next).symm.trans returned)
    · exact closing.left other ((move_other system same next).symm.trans returned)
  flag := closing.flag
  joined count joining := by
    obtain ⟨inside,all⟩ := closing.joined count joining
    refine ⟨inside,fun other below => ?_⟩
    have different : other ≠ worker := fun same => before (same ▸ all other below)
    exact (move_other system different next).trans (all other below)
  ended returned := absurd (closing.ended returned worker) before
  asleep stopping other waiting := by
    by_cases same : other = worker
    · subst same
      cases (sleeps ((move_self system other next).symm.trans waiting)).symm.trans stopping
    · exact closing.asleep stopping other ((move_other system same next).symm.trans waiting)

/-- Behind the last join the queue is empty, since there was a worker. -/
theorem Closing.emptied (closing : Closing system) (joined : system.shutdown = .joining config.threadCount) :
    system.pool.jobs = [] := by
  let first : Fin config.threadCount := ⟨0,Nat.pos_of_ne_zero config.workers⟩
  exact (closing.left first ((closing.joined _ joined).2 first first.isLt)).2

theorem notifyAll_waiting (pool : ThreadPool config) (worker : Fin config.threadCount) :
    pool.notifyAll.workers worker ≠ .waiting := by
  dsimp only [ThreadPool.notifyAll]
  split
  · nofun
  · next awake => exact awake

theorem notifyAll_returned {pool : ThreadPool config} {worker : Fin config.threadCount}
    (returned : pool.notifyAll.workers worker = .returned) : pool.workers worker = .returned := by
  dsimp only [ThreadPool.notifyAll] at returned
  split at returned
  · cases returned
  · exact returned

theorem Closing.step (closing : Closing system) (step : Step action system next) : Closing next := by
  cases step with
  | call | refuse | notify | again => exact {closing with}
  | accept _ going =>
    exact {closing with left := fun worker returned => by cases going.symm.trans (closing.left worker returned).1}
  | notifyOne _ waiting => exact {closing.move .locking (by rw [waiting]; nofun) nofun nofun with}
  | wait locking _ going => exact closing.move .waiting (by rw [locking]; nofun) nofun fun _ => going
  | leave locking empty stopping =>
    exact closing.move .returned (by rw [locking]; nofun) (fun _ => ⟨stopping,empty⟩) nofun
  | @take _ worker job rest locking queue =>
    have nobody : ∀ other, system.pool.workers other ≠ .returned := by
      intro other returned
      cases queue.symm.trans (closing.left other returned).2
    have moved := closing.move (.starting job) (nobody worker) nofun nofun
    refine {moved with left := fun other returned => ?_}
    by_cases same : other = worker
    · subst same
      cases (move_self system other (.starting job)).symm.trans returned
    · exact absurd ((move_other system same (.starting job)).symm.trans returned) (nobody other)
  | wake waiting => exact closing.move .locking (by rw [waiting]; nofun) nofun nofun
  | @start _ _ job starting => exact {closing.move (.running job) (by rw [starting]; nofun) nofun nofun with}
  | finish running => exact {closing.move .locking (by rw [running]; nofun) nofun nofun with}
  | stop going =>
    refine ⟨fun worker returned => ?_,by simp,nofun,nofun,fun _ _ _ => rfl⟩
    cases going.symm.trans (closing.left worker returned).1
  | notifyAll notifying =>
    have stopping : system.pool.stopping = true := closing.flag.mpr (by rw [notifying]; nofun)
    refine ⟨fun worker returned => closing.left worker (notifyAll_returned returned),?_,?_,nofun,?_⟩
    · exact iff_of_true stopping nofun
    · rintro count ⟨⟩
      exact ⟨Nat.zero_le _,nofun⟩
    · exact fun _ worker waiting => absurd waiting (notifyAll_waiting _ worker)
  | @join _ worker joining returned =>
    obtain ⟨_,all⟩ := closing.joined _ joining
    have stopping : system.pool.stopping = true := (closing.left worker returned).1
    refine ⟨closing.left,iff_of_true stopping nofun,?_,nofun,fun _ other waiting => ?_⟩
    · rintro count ⟨⟩
      refine ⟨worker.isLt,fun other below => ?_⟩
      rcases Nat.lt_succ_iff_lt_or_eq.mp below with earlier | same
      · exact all other earlier
      · exact Fin.ext same ▸ returned
    · cases joining.symm.trans (closing.asleep stopping other waiting)
  | discard joined =>
    obtain ⟨_,all⟩ := closing.joined _ joined
    have everyone : ∀ worker, system.pool.workers worker = .returned := fun worker => all worker worker.isLt
    have stopping : system.pool.stopping = true := closing.flag.mpr (by rw [joined]; nofun)
    refine ⟨fun worker _ => ⟨stopping,rfl⟩,iff_of_true stopping nofun,nofun,fun _ => everyone,?_⟩
    exact fun _ worker waiting => by cases (everyone worker).symm.trans waiting

theorem called_before {calls : List Call} {call : Nat} (found : Call) (past : found ≠ .entering) :
    (calls ++ [.entering])[call]? = some found ↔ calls[call]? = some found := by
  rw [List.getElem?_append]
  split
  · rfl
  · next beyond =>
    rw [List.getElem?_eq_none (Nat.not_lt.mp beyond),List.getElem?_singleton]
    refine iff_of_false (fun entering => ?_) nofun
    obtain ⟨_,new⟩ := Option.ite_none_right_eq_some.mp entering
    exact past (Option.some.inj new).symm

section held
variable {weight : Worker → Multiset Nat} {more fewer : List Nat} {worker : Fin config.threadCount} {job : Nat}

theorem sum_move (weight : Worker → Multiset Nat) (system : System config) (worker : Fin config.threadCount)
    (next : Worker) :
    ∑ other, weight ((system.move worker next).pool.workers other) + weight (system.pool.workers worker) =
      ∑ other, weight (system.pool.workers other) + weight next :=
  Tally.sum_update weight system.pool.workers worker next

/-- The workers hold what some list has more than another, and go on holding it. -/
theorem held_stays (held : (more : Multiset Nat) = fewer + ∑ other, weight (system.pool.workers other)) (next : Worker)
    (same : weight (system.pool.workers worker) = weight next) :
    (more : Multiset Nat) = fewer + ∑ other, weight ((system.move worker next).pool.workers other) := by
  have moved := sum_move weight system worker next
  rw [same] at moved
  rw [held,add_right_cancel moved]

/-- A worker comes to hold a job more. -/
theorem held_gains (held : (more : Multiset Nat) = fewer + ∑ other, weight (system.pool.workers other)) (next : Worker)
    (before : weight (system.pool.workers worker) = 0) (after : weight next = {job}) :
    ((more ++ [job] : List Nat) : Multiset Nat) =
      fewer + ∑ other, weight ((system.move worker next).pool.workers other) := by
  have moved := sum_move weight system worker next
  rw [before,after,add_zero] at moved
  rw [moved,← Multiset.coe_add,held,add_assoc]
  rfl

/-- A worker passes on the job that it holds. -/
theorem held_passes (held : (more : Multiset Nat) = fewer + ∑ other, weight (system.pool.workers other)) (next : Worker)
    (before : weight (system.pool.workers worker) = {job}) (after : weight next = 0) :
    (more : Multiset Nat) =
      ((fewer ++ [job] : List Nat) : Multiset Nat) + ∑ other, weight ((system.move worker next).pool.workers other) := by
  have moved := sum_move weight system worker next
  rw [before,after,add_zero,add_comm] at moved
  rw [held,← moved,← Multiset.coe_add,add_assoc]
  rfl

end held

/-- A worker moves on with the same job in the same state, or without any. -/
theorem Accounted.move (accounted : Accounted system) {worker : Fin config.threadCount} (next : Worker)
    (assigned : (system.pool.workers worker).assigned = next.assigned)
    (executing : (system.pool.workers worker).executing = next.executing) : Accounted (system.move worker next) :=
  {accounted with
    taken := held_stays accounted.taken next assigned
    started := held_stays accounted.started next executing}

theorem Accounted.answer (accounted : Accounted system) {call : Nat} {old : Call} (next : Call)
    (found : system.calls[call]? = some old)
    (same : next = .notifying ∨ next = .returned true ↔ old = .notifying ∨ old = .returned true) :
    Accounted (system.answer call next) := by
  refine {accounted with accepted := fun other => (accounted.accepted other).trans ?_}
  rw [answer_calls found]
  split
  · next here =>
    rw [← here,found]
    simpa using same.symm
  · rfl

theorem Accounted.absent (accounted : Accounted system) {call : Nat} (entering : system.calls[call]? = some .entering) :
    call ∉ system.submitted := by
  rw [accounted.accepted,entering]
  simp

theorem Accounted.accept (accounted : Accounted system) {call : Nat} (entering : system.calls[call]? = some .entering)
    (room : system.pool.jobs.length < config.maxQueueSize) :
    Accounted {system.answer call .notifying with
      pool := {system.pool with jobs := system.pool.jobs ++ [call]}
      submitted := system.submitted ++ [call]} where
  queue := by
    change system.submitted ++ [call] = system.taken ++ (system.pool.jobs ++ [call])
    rw [accounted.queue,List.append_assoc]
  taken := accounted.taken
  started := accounted.started
  distinct := by
    have absent := accounted.absent entering
    exact List.nodup_append.mpr ⟨accounted.distinct,List.nodup_singleton call,fun one member two same => by
      rw [List.mem_singleton.mp same]
      exact fun equal => absent (equal ▸ member)⟩
  accepted other := by
    change other ∈ system.submitted ++ [call] ↔ (system.answer call .notifying).calls[other]? = _ ∨
      (system.answer call .notifying).calls[other]? = _
    rw [answer_calls entering,List.mem_append,List.mem_singleton]
    split
    · next here => exact iff_of_true (Or.inr here.symm) (Or.inl rfl)
    · next different =>
      rw [or_iff_left (Ne.symm different)]
      exact accounted.accepted other
  bound := by
    change (system.pool.jobs ++ [call]).length ≤ _
    rw [List.length_append]
    exact room

theorem Accounted.take (accounted : Accounted system) {worker : Fin config.threadCount} {job : Nat} {rest : List Nat}
    (locking : system.pool.workers worker = .locking) (queue : system.pool.jobs = job::rest) :
    Accounted {system with
      pool := {system.pool.move worker (.starting job) with jobs := rest}
      taken := system.taken ++ [job]} where
  queue := by
    change system.submitted = system.taken ++ [job] ++ rest
    rw [accounted.queue,queue,List.append_assoc]
    rfl
  taken := held_gains accounted.taken (.starting job) (by rw [locking]; rfl) rfl
  started := held_stays accounted.started (.starting job) (by rw [locking]; rfl)
  distinct := accounted.distinct
  accepted := accounted.accepted
  bound := by
    have before := accounted.bound
    rw [queue] at before
    exact Nat.le_of_succ_le before

theorem Accounted.start (accounted : Accounted system) {worker : Fin config.threadCount} {job : Nat}
    (starting : system.pool.workers worker = .starting job) :
    Accounted {system.move worker (.running job) with started := system.started ++ [job]} :=
  {accounted with
    taken := held_passes accounted.taken (.running job) (by rw [starting]; rfl) rfl
    started := held_gains accounted.started (.running job) (by rw [starting]; rfl) rfl}

theorem Accounted.finish (accounted : Accounted system) {worker : Fin config.threadCount} {job : Nat}
    (running : system.pool.workers worker = .running job) :
    Accounted {system.move worker .locking with finished := system.finished ++ [job]} :=
  {accounted with
    taken := held_stays accounted.taken .locking (by rw [running]; rfl)
    started := held_passes accounted.started .locking (by rw [running]; rfl) rfl}

theorem notifyAll_jobs (pool : ThreadPool config) (worker : Fin config.threadCount) :
    (pool.notifyAll.workers worker).assigned = (pool.workers worker).assigned ∧
      (pool.notifyAll.workers worker).executing = (pool.workers worker).executing := by
  dsimp only [ThreadPool.notifyAll]
  split
  · next waiting =>
    rw [waiting]
    exact ⟨rfl,rfl⟩
  · exact ⟨rfl,rfl⟩

theorem accounted_initial (config : PoolConfig) : Accounted (.initial config) where
  queue := rfl
  taken := by simp [System.initial,ThreadPool.new,Worker.assigned]
  started := by simp [System.initial,ThreadPool.new,Worker.executing]
  distinct := List.nodup_nil
  accepted call := by simp [System.initial]
  bound := Nat.zero_le _

theorem Accounted.step (accounted : Accounted system) (closing : Closing system) (step : Step action system next) :
    Accounted next := by
  cases step with
  | call =>
    refine {accounted with accepted := fun call => (accounted.accepted call).trans ?_}
    exact (or_congr (called_before .notifying nofun) (called_before (.returned true) nofun)).symm
  | refuse entering => exact accounted.answer _ entering (by simp)
  | accept entering _ room => exact accounted.accept entering room
  | notify notifying => exact accounted.answer _ notifying (by simp)
  | notifyOne notifying waiting =>
    have moved := accounted.move .locking (by rw [waiting]; rfl) (by rw [waiting]; rfl)
    exact moved.answer _ notifying (by simp)
  | wait locking => exact accounted.move _ (by rw [locking]; rfl) (by rw [locking]; rfl)
  | leave locking => exact accounted.move _ (by rw [locking]; rfl) (by rw [locking]; rfl)
  | take locking queue => exact accounted.take locking queue
  | wake waiting => exact accounted.move _ (by rw [waiting]; rfl) (by rw [waiting]; rfl)
  | start starting => exact accounted.start starting
  | finish running => exact accounted.finish running
  | stop | again | join => exact {accounted with}
  | notifyAll =>
    refine {accounted with taken := ?_, started := ?_}
    · exact accounted.taken.trans (congrArg _ (Finset.sum_congr rfl fun worker _ => (notifyAll_jobs _ worker).1.symm))
    · exact accounted.started.trans (congrArg _ (Finset.sum_congr rfl fun worker _ => (notifyAll_jobs _ worker).2.symm))
  | discard joined =>
    refine {accounted with queue := ?_, bound := Nat.zero_le _}
    have queue := accounted.queue
    rwa [closing.emptied joined] at queue

/-- When a job is called, fewer jobs than there are workers are still to be called of those
that were queued before it. -/
def InOrder (system : System config) : Prop :=
  ∀ past job later front back, system.started = past ++ job::later → system.submitted = front ++ job::back →
    (front.filter (· ∉ past)).length < config.threadCount

theorem Accounted.queued (accounted : Accounted system) {job : Nat} (called : job ∈ system.started) :
    job ∈ system.submitted := by
  rw [accounted.queue]
  refine List.mem_append_left _ (Multiset.mem_coe.mp ?_)
  rw [accounted.taken]
  exact Multiset.mem_add.mpr (Or.inl called)

theorem Accounted.taken_before (accounted : Accounted system) {front back : List Nat} {job : Nat}
    (split : system.submitted = front ++ job::back) (taken : job ∈ system.taken) :
    ∀ other ∈ front, other ∈ system.taken := by
  intro other member
  -- otherwise the other job is still queued, and so is this one behind it
  have distinct := accounted.distinct
  rcases List.append_eq_append_iff.mp (accounted.queue.symm.trans split) with ⟨middle,rfl,later⟩ | ⟨middle,early,_⟩
  · rw [split] at distinct
    rcases List.mem_append.mp member with inside | outside
    · exact inside
    · have again : job ∈ system.taken ++ middle := List.mem_append_left _ taken
      exact absurd rfl ((List.nodup_append.mp distinct).2.2 job again job List.mem_cons_self)
  · rw [early]
    exact List.mem_append_left _ member

/-- If no worker holds more than one job and one of them holds none, they hold fewer jobs than
there are workers. -/
theorem held_fewer {weight : Worker → Multiset Nat} (single : ∀ state, (weight state).card ≤ 1)
    {worker : Fin config.threadCount} (free : weight (system.pool.workers worker) = 0) :
    (∑ other, weight (system.pool.workers other)).card < config.threadCount := by
  calc (∑ other, weight (system.pool.workers other)).card
      = ∑ other, (weight (system.pool.workers other)).card := map_sum Multiset.cardHom _ _
    _ < ∑ _other : Fin config.threadCount, 1 := by
      refine Finset.sum_lt_sum (fun other _ => single _) ⟨worker,Finset.mem_univ _,?_⟩
      rw [free]
      exact Nat.one_pos
    _ = config.threadCount := by simp

theorem Accounted.uncalled (accounted : Accounted system) {front back : List Nat} {job : Nat}
    (split : system.submitted = front ++ job::back) (called : job ∈ system.started)
    (worker : Fin config.threadCount) (free : (system.pool.workers worker).assigned = 0) :
    (front.filter (· ∉ system.started)).length < config.threadCount := by
  have taken : ∀ other, other ∈ system.taken ↔
      other ∈ system.started ∨ other ∈ ∑ worker, (system.pool.workers worker).assigned := by
    intro other
    rw [← Multiset.mem_coe,accounted.taken,Multiset.mem_add,Multiset.mem_coe]
  have distinct : front.Nodup := by
    have all := accounted.distinct
    rw [split] at all
    exact (List.nodup_append.mp all).1
  have inside : ((front.filter (· ∉ system.started) : List Nat) : Multiset Nat) ≤
      ∑ worker, (system.pool.workers worker).assigned := by
    refine (Multiset.le_iff_subset (Multiset.coe_nodup.mpr (distinct.filter _))).mpr fun other member => ?_
    obtain ⟨before,uncalled⟩ := List.mem_filter.mp (Multiset.mem_coe.mp member)
    have present := accounted.taken_before split ((taken job).mpr (Or.inl called)) other before
    exact ((taken other).mp present).resolve_left (of_decide_eq_true uncalled)
  have single : ∀ state : Worker, state.assigned.card ≤ 1 := by
    intro state
    cases state <;> simp [Worker.assigned]
  exact Nat.lt_of_le_of_lt (Multiset.card_le_card inside) (held_fewer single free)

theorem InOrder.step (ordered : InOrder system) (accounted : Accounted system) (closing : Closing system)
    (step : Step action system next) : InOrder next := by
  have after := accounted.step closing step
  cases step with
  | @accept _ call entering =>
    intro past job later front back called queue
    have queued : job ∈ system.submitted := by
      apply accounted.queued
      change system.started = past ++ job::later at called
      rw [called]
      exact List.mem_append_right _ List.mem_cons_self
    change system.submitted ++ [call] = front ++ job::back at queue
    rcases List.eq_nil_or_concat back with rfl | ⟨init,last,rfl⟩
    · obtain ⟨_,same⟩ := List.append_inj' queue rfl
      cases same
      exact absurd queued (accounted.absent entering)
    · rw [List.concat_eq_append,← List.cons_append,← List.append_assoc] at queue
      exact ordered past job later front init called (List.append_inj' queue rfl).1
  | @start _ worker job starting =>
    intro past other later front back called queue
    change system.started ++ [job] = past ++ other::later at called
    rcases List.eq_nil_or_concat later with rfl | ⟨init,last,rfl⟩
    · obtain ⟨same,⟨⟩⟩ := List.append_inj' called rfl
      have outside : job ∉ front := by
        have distinct := after.distinct
        rw [queue] at distinct
        exact fun inside => (List.nodup_append.mp distinct).2.2 job inside job List.mem_cons_self rfl
      have uncalled : front.filter (· ∉ past) = front.filter (· ∉ system.started ++ [job]) := by
        refine List.filter_congr fun one member => decide_eq_decide.mpr (not_congr ?_)
        have different : one ≠ job := fun equal => outside (equal ▸ member)
        rw [same,List.mem_append,List.mem_singleton,or_iff_left different]
      rw [uncalled]
      refine after.uncalled queue (List.mem_append_right _ List.mem_cons_self) worker ?_
      rw [move_self]
      rfl
    · rw [List.concat_eq_append,← List.cons_append,← List.append_assoc] at called
      exact ordered past other init front back (List.append_inj' called rfl).1 queue
  | _ => exact ordered

/-- While jobs wait, some worker is not asleep or is about to be woken. -/
def Awake (system : System config) : Prop :=
  system.pool.jobs ≠ [] → (∃ worker, system.pool.workers worker ≠ .waiting) ∨
    (∃ call : Nat, system.calls[call]? = some .notifying) ∨ system.shutdown = .notifying

theorem Awake.step (awake : Awake system) (step : Step action system next) : Awake next := by
  have moved : ∀ (worker : Fin config.threadCount) (state : Worker), state ≠ .waiting →
      ∃ other, (system.move worker state).pool.workers other ≠ .waiting := by
    intro worker state up
    exact ⟨worker,by rw [move_self]; exact up⟩
  intro waiting
  cases step with
  | call =>
    refine (awake waiting).imp_right (Or.imp_left ?_)
    rintro ⟨call,notifying⟩
    exact ⟨call,(called_before .notifying nofun).mpr notifying⟩
  | @refuse _ call entering =>
    refine (awake waiting).imp_right (Or.imp_left ?_)
    rintro ⟨other,notifying⟩
    have different : call ≠ other := by
      rintro rfl
      cases entering.symm.trans notifying
    exact ⟨other,by rw [answer_calls entering,if_neg different]; exact notifying⟩
  | @accept _ call entering =>
    refine Or.inr (Or.inl ⟨call,?_⟩)
    change (system.answer call .notifying).calls[call]? = _
    rw [answer_calls entering,if_pos rfl]
  | notify _ nobody => exact Or.inl ⟨⟨0,Nat.pos_of_ne_zero config.workers⟩,nobody _⟩
  | @notifyOne _ _ worker => exact Or.inl (moved worker .locking nofun)
  | wait _ empty | leave _ empty => exact absurd empty waiting
  | @take _ worker job => exact Or.inl (moved worker (.starting job) nofun)
  | @wake _ worker => exact Or.inl (moved worker .locking nofun)
  | @start _ worker job => exact Or.inl (moved worker (.running job) nofun)
  | @finish _ worker => exact Or.inl (moved worker .locking nofun)
  | stop => exact Or.inr (Or.inr rfl)
  | again => exact awake waiting
  | notifyAll => exact Or.inl ⟨⟨0,Nat.pos_of_ne_zero config.workers⟩,notifyAll_waiting _ _⟩
  | join joining =>
    refine (awake waiting).imp_right (Or.imp_right fun notifying => ?_)
    cases joining.symm.trans notifying
  | discard => exact absurd rfl waiting

/-- Everything that holds behind every schedule. -/
structure Sound (system : System config) : Prop where
  closing : Closing system
  accounted : Accounted system
  ordered : InOrder system
  awake : Awake system

theorem sound_initial (config : PoolConfig) : Sound (.initial config) where
  closing := closing_initial config
  accounted := accounted_initial config
  ordered past _ _ _ _ called := by cases List.append_ne_nil_of_right_ne_nil past (List.cons_ne_nil _ _) called.symm
  awake waiting := absurd rfl waiting

theorem Sound.step (sound : Sound system) (step : Step action system next) : Sound next :=
  ⟨sound.closing.step step,sound.accounted.step sound.closing step,
    sound.ordered.step sound.accounted sound.closing step,sound.awake.step step⟩

end NovaCache.Util
