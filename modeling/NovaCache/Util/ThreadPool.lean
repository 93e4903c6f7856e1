import NovaCache.Persistence.Binary
import NovaCache.Schedule
import Mathlib.Logic.Function.Basic

/-! The thread pool under its mutex. Shared data is touched only in critical sections, so each
of these is one step; between them any thread may be next. A job is known by the call of
`try_submit` that brings it, and no job throws. -/
namespace NovaCache.Util

/-- The constructor refuses to build a pool without workers or without a queue. -/
structure PoolConfig where
  threadCount : Nat
  maxQueueSize : Nat
  workers : threadCount ≠ 0
  queue : maxQueueSize ≠ 0

def PoolConfig.make (threadCount maxQueueSize : Nat) : Except Failure PoolConfig :=
  if workers : threadCount = 0 then .error (.invalidArgument "thread pool requires at least one worker")
  else if queue : maxQueueSize = 0 then .error (.invalidArgument "thread pool queue limit must be positive")
  else .ok ⟨threadCount,maxQueueSize,workers,queue⟩

/-- Where a thread is in `worker_main`: before it takes the mutex (at first, and when it has
been woken), in `cv_.wait`, with a job it has taken but not called yet, in the job, at its end. -/
inductive Worker
  | locking
  | waiting
  | starting (job : Nat)
  | running (job : Nat)
  | returned
  deriving DecidableEq, Repr

/-- Where a call of `try_submit` is: before the mutex, before `cv_.notify_one`, at its end. -/
inductive Call
  | entering
  | notifying
  | returned (accepted : Bool)
  deriving DecidableEq, Repr

/-- Where `shutdown` is: not called, before `cv_.notify_all`, about to join a worker or, behind
the last of them, to empty the queue, at its end. -/
inductive Shutdown
  | idle
  | notifying
  | joining (worker : Nat)
  | returned
  deriving DecidableEq, Repr

structure ThreadPool (config : PoolConfig) where
  jobs : List Nat
  workers : Fin config.threadCount → Worker
  stopping : Bool

variable {config : PoolConfig}

namespace ThreadPool

def new (config : PoolConfig) : ThreadPool config := ⟨[],fun _ => .locking,false⟩

/-- The critical section of `try_submit`. -/
def trySubmit (pool : ThreadPool config) (job : Nat) : Bool × ThreadPool config :=
  if pool.stopping ∨ pool.jobs.length ≥ config.maxQueueSize then (false,pool)
  else (true,{pool with jobs := pool.jobs ++ [job]})

def move (pool : ThreadPool config) (worker : Fin config.threadCount) (next : Worker) : ThreadPool config :=
  {pool with workers := Function.update pool.workers worker next}

/-- The critical section of `worker_main`, from the test of the predicate of `cv_.wait` on. -/
def workerMain (pool : ThreadPool config) (worker : Fin config.threadCount) : ThreadPool config :=
  match pool.jobs with
  | [] => if pool.stopping then pool.move worker .returned else pool.move worker .waiting
  | job::rest => {pool.move worker (.starting job) with jobs := rest}

def notifyAll (pool : ThreadPool config) : ThreadPool config :=
  {pool with workers := fun worker => if pool.workers worker = .waiting then .locking else pool.workers worker}

end ThreadPool

/-- The pool, the calls under way, and a record of the jobs: in the order in which they were
queued, taken off the queue, called and finished. -/
structure System (config : PoolConfig) where
  pool : ThreadPool config
  calls : List Call
  shutdown : Shutdown
  submitted : List Nat
  taken : List Nat
  started : List Nat
  finished : List Nat

namespace System

def initial (config : PoolConfig) : System config := ⟨.new config,[],.idle,[],[],[],[]⟩

def answer (system : System config) (call : Nat) (next : Call) : System config :=
  {system with calls := system.calls.set call next}

def move (system : System config) (worker : Fin config.threadCount) (next : Worker) : System config :=
  {system with pool := system.pool.move worker next}

end System

/-- What can happen next: a call begins, passes its critical section or notifies a worker, a
worker passes its own, wakes up unasked, calls its job or returns from it, and `shutdown`
begins, notifies, joins a worker or empties the queue. -/
inductive Action (config : PoolConfig)
  | call
  | submit (call : Nat)
  | notifyOne (call : Nat) (woken : Option (Fin config.threadCount))
  | lock (worker : Fin config.threadCount)
  | wake (worker : Fin config.threadCount)
  | start (worker : Fin config.threadCount)
  | finish (worker : Fin config.threadCount)
  | stop
  | notifyAll
  | join
  | discard
  deriving DecidableEq, Repr

def submit (call : Nat) (system : System config) : System config :=
  match system.pool.trySubmit call with
  | (false,_) => system.answer call (.returned false)
  | (true,pool) => {system.answer call .notifying with pool := pool, submitted := system.submitted ++ [call]}

/-- `notify_one` wakes one of the threads that wait, if there are any. -/
def notifyOne (call : Nat) (system : System config) : Option (Fin config.threadCount) → Option (System config)
  | none =>
    if ∀ worker, system.pool.workers worker ≠ .waiting then some (system.answer call (.returned true)) else none
  | some worker =>
    if system.pool.workers worker = .waiting then some ((system.move worker .locking).answer call (.returned true))
    else none

def lock (worker : Fin config.threadCount) (system : System config) : System config :=
  {system with
    pool := system.pool.workerMain worker
    taken := system.taken ++ system.pool.jobs.head?.toList}

/-- A second call of `shutdown` returns at once. -/
def stop (system : System config) : System config :=
  if system.pool.stopping then system
  else {system with pool := {system.pool with stopping := true}, shutdown := .notifying}

def act : Action config → System config → Option (System config)
  | .call, system => some {system with calls := system.calls ++ [.entering]}
  | .submit call, system => if system.calls[call]? = some .entering then some (submit call system) else none
  | .notifyOne call woken, system =>
    if system.calls[call]? = some .notifying then notifyOne call system woken else none
  | .lock worker, system => if system.pool.workers worker = .locking then some (lock worker system) else none
  | .wake worker, system =>
    if system.pool.workers worker = .waiting then some (system.move worker .locking) else none
  | .start worker, system =>
    match system.pool.workers worker with
    | .starting job => some {system.move worker (.running job) with started := system.started ++ [job]}
    | _ => none
  | .finish worker, system =>
    match system.pool.workers worker with
    | .running job => some {system.move worker .locking with finished := system.finished ++ [job]}
    | _ => none
  | .stop, system => some (stop system)
  | .notifyAll, system =>
    if system.shutdown = .notifying then some {system with pool := system.pool.notifyAll, shutdown := .joining 0}
    else none
  | .join, system =>
    match system.shutdown with
    | .joining worker =>
      if inside : worker < config.threadCount then
        if system.pool.workers ⟨worker,inside⟩ = .returned then some {system with shutdown := .joining (worker + 1)}
        else none
      else none
    | _ => none
  | .discard, system =>
    if system.shutdown = .joining config.threadCount then
      some {system with pool := {system.pool with jobs := []}, shutdown := .returned}
    else none

/-- The steps by which the pool goes on by itself, once calls and `shutdown` have begun. -/
def Action.own : Action config → Bool
  | .call | .wake _ | .stop => false
  | _ => true

/-- The actions with what each of them finds. -/
inductive Step : Action config → System config → System config → Prop
  | call {system} : Step .call system {system with calls := system.calls ++ [.entering]}
  | refuse {system call} (entering : system.calls[call]? = some .entering) :
      Step (.submit call) system (system.answer call (.returned false))
  | accept {system call} (entering : system.calls[call]? = some .entering) (going : system.pool.stopping = false)
      (room : system.pool.jobs.length < config.maxQueueSize) :
      Step (.submit call) system {system.answer call .notifying with
        pool := {system.pool with jobs := system.pool.jobs ++ [call]}
        submitted := system.submitted ++ [call]}
  | notify {system call} (notifying : system.calls[call]? = some .notifying)
      (nobody : ∀ worker, system.pool.workers worker ≠ .waiting) :
      Step (.notifyOne call none) system (system.answer call (.returned true))
  | notifyOne {system call worker} (notifying : system.calls[call]? = some .notifying)
      (waiting : system.pool.workers worker = .waiting) :
      Step (.notifyOne call (some worker)) system ((system.move worker .locking).answer call (.returned true))
  | wait {system worker} (locking : system.pool.workers worker = .locking) (empty : system.pool.jobs = [])
      (going : system.pool.stopping = false) : Step (.lock worker) system (system.move worker .waiting)
  | leave {system worker} (locking : system.pool.workers worker = .locking) (empty : system.pool.jobs = [])
      (stopping : system.pool.stopping = true) : Step (.lock worker) system (system.move worker .returned)
  | take {system worker job rest} (locking : system.pool.workers worker = .locking)
      (queue : system.pool.jobs = job::rest) :
      Step (.lock worker) system {system with
        pool := {system.pool.move worker (.starting job) with jobs := rest}
        taken := system.taken ++ [job]}
  | wake {system worker} (waiting : system.pool.workers worker = .waiting) :
      Step (.wake worker) system (system.move worker .locking)
  | start {system worker job} (starting : system.pool.workers worker = .starting job) :
      Step (.start worker) system {system.move worker (.running job) with started := system.started ++ [job]}
  | finish {system worker job} (running : system.pool.workers worker = .running job) :
      Step (.finish worker) system {system.move worker .locking with finished := system.finished ++ [job]}
  | stop {system} (going : system.pool.stopping = false) :
      Step .stop system {system with pool := {system.pool with stopping := true}, shutdown := .notifying}
  | again {system} : Step .stop system system
  | notifyAll {system} (notifying : system.shutdown = .notifying) :
      Step .notifyAll system {system with pool := system.pool.notifyAll, shutdown := .joining 0}
  | join {system} {worker : Fin config.threadCount} (joining : system.shutdown = .joining worker.val)
      (returned : system.pool.workers worker = .returned) :
      Step .join system {system with shutdown := .joining (worker.val + 1)}
  | discard {system} (joined : system.shutdown = .joining config.threadCount) :
      Step .discard system {system with pool := {system.pool with jobs := []}, shutdown := .returned}

theorem submit_step {call : Nat} {system : System config} (entering : system.calls[call]? = some .entering) :
    Step (.submit call) system (submit call system) := by
  unfold submit ThreadPool.trySubmit
  by_cases closed : system.pool.stopping ∨ system.pool.jobs.length ≥ config.maxQueueSize
  · rw [if_pos closed]
    exact .refuse entering
  · rw [if_neg closed]
    rw [not_or] at closed
    exact .accept entering (Bool.not_eq_true _ ▸ closed.1) (Nat.lt_of_not_ge closed.2)

theorem notifyOne_step {call : Nat} {system next : System config} {woken : Option (Fin config.threadCount)}
    (notifying : system.calls[call]? = some .notifying) (acted : notifyOne call system woken = some next) :
    Step (.notifyOne call woken) system next := by
  cases woken with
  | none =>
    obtain ⟨nobody,⟨⟩⟩ := Option.ite_none_right_eq_some.mp acted
    exact .notify notifying nobody
  | some worker =>
    obtain ⟨waiting,⟨⟩⟩ := Option.ite_none_right_eq_some.mp acted
    exact .notifyOne notifying waiting

theorem lock_step {worker : Fin config.threadCount} {system : System config}
    (locking : system.pool.workers worker = .locking) : Step (.lock worker) system (lock worker system) := by
  unfold lock ThreadPool.workerMain
  cases queue : system.pool.jobs with
  | nil =>
    have none : system.taken ++ ([] : List Nat).head?.toList = system.taken := List.append_nil _
    rw [none]
    cases flag : system.pool.stopping with
    | false => exact .wait locking queue flag
    | true => exact .leave locking queue flag
  | cons job rest => exact .take locking queue

theorem act_step {action : Action config} {system next : System config} (acted : act action system = some next) :
    Step action system next := by
  cases action with
  | call =>
    cases acted
    exact .call
  | submit call =>
    obtain ⟨entering,⟨⟩⟩ := Option.ite_none_right_eq_some.mp acted
    exact submit_step entering
  | notifyOne call woken =>
    obtain ⟨notifying,woke⟩ := Option.ite_none_right_eq_some.mp acted
    exact notifyOne_step notifying woke
  | lock worker =>
    obtain ⟨locking,⟨⟩⟩ := Option.ite_none_right_eq_some.mp acted
    exact lock_step locking
  | wake worker =>
    obtain ⟨waiting,⟨⟩⟩ := Option.ite_none_right_eq_some.mp acted
    exact .wake waiting
  | start worker =>
    dsimp only [act] at acted
    split at acted
    · next job starting =>
      cases acted
      exact .start starting
    · cases acted
  | finish worker =>
    dsimp only [act] at acted
    split at acted
    · next job running =>
      cases acted
      exact .finish running
    · cases acted
  | stop =>
    cases acted
    unfold stop
    split
    · exact .again
    · next going => exact .stop (Bool.not_eq_true _ ▸ going)
  | notifyAll =>
    obtain ⟨notifying,⟨⟩⟩ := Option.ite_none_right_eq_some.mp acted
    exact .notifyAll notifying
  | join =>
    dsimp only [act] at acted
    split at acted
    · next worker joining =>
      split at acted
      · next inside =>
        obtain ⟨returned,⟨⟩⟩ := Option.ite_none_right_eq_some.mp acted
        exact .join joining returned
      · cases acted
    · cases acted
  | discard =>
    obtain ⟨joined,⟨⟩⟩ := Option.ite_none_right_eq_some.mp acted
    exact .discard joined

/-- What the first state has and every step keeps holds behind every schedule. -/
theorem run_keeps {holds : System config → Prop} (start : holds (.initial config))
    (kept : ∀ action system next, Step action system next → holds system → holds next) {actions : List (Action config)}
    {system : System config} (ran : Schedule.run act actions (.initial config) = some system) : holds system :=
  Schedule.run_invariant (fun action state next acted => kept action state next (act_step acted)) ran start

end NovaCache.Util
