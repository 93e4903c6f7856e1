import NovaCache.Server.Replies
import NovaCache.Util.PoolInvariant

/-! The pool as the server sees it. Its threads, the condition variable and the mutex are gone:
what is left is the queue, and the jobs that were taken and have not finished. Until the pool
is shut down, every schedule of the threads is a run of that smaller pool. -/
namespace NovaCache.Server
open Util (PoolConfig System Worker Action Step)
variable {config : PoolConfig} {system next : System config} {action : Action config} {describe : Nat → Job}
  {server : ServerState} {pool : ThreadPool}

/-- The job that a worker has taken and not finished. -/
def held (worker : Worker) : Multiset Nat := worker.assigned + worker.executing

/-- The server's view of the threads; a call of `try_submit` brings the job of its number. -/
structure Shows (describe : Nat → Job) (system : System config) (pool : ThreadPool) : Prop where
  threadCount : pool.threadCount = config.threadCount
  maxQueueSize : pool.maxQueueSize = config.maxQueueSize
  jobs : pool.jobs = system.pool.jobs.map describe
  running : (pool.running : Multiset Job) = (∑ worker, held (system.pool.workers worker)).map describe

/-- What the procedures of the server and the steps of its workers do to the pool. -/
inductive PoolMove : ThreadPool → ThreadPool → Prop
  | stay {pool : ThreadPool} : PoolMove pool pool
  | submit {pool : ThreadPool} (job : Job) : PoolMove pool (pool.trySubmit job).2
  | take {server : ServerState} : PoolMove server.pool (take server).pool
  | finish {pool : ThreadPool} (index : Nat) : PoolMove pool (pool.release index)

/-- The caller gets the same answer. -/
theorem Shows.answer (shows : Shows describe system pool) (going : system.pool.stopping = false) (call : Nat) :
    (pool.trySubmit (describe call)).1 = (system.pool.trySubmit call).1 := by
  unfold ThreadPool.trySubmit Util.ThreadPool.trySubmit
  rw [shows.jobs,shows.maxQueueSize,List.length_map,going]
  by_cases full : system.pool.jobs.length ≥ config.maxQueueSize
  · rw [if_pos full,if_pos (Or.inr full)]
  · rw [if_neg full,if_neg (by simpa using full)]

theorem Shows.accept (shows : Shows describe system pool) {call : Nat} {calls : List Util.Call} {submitted : List Nat}
    (room : system.pool.jobs.length < config.maxQueueSize) :
    Shows describe {system with
      calls := calls
      pool := {system.pool with jobs := system.pool.jobs ++ [call]}
      submitted := submitted} (pool.trySubmit (describe call)).2 := by
  have free : ¬ pool.jobs.length ≥ pool.maxQueueSize := by
    rw [shows.jobs,shows.maxQueueSize,List.length_map]
    exact Nat.not_le_of_lt room
  unfold ThreadPool.trySubmit
  rw [if_neg free]
  refine {shows with jobs := ?_}
  change pool.jobs ++ [describe call] = (system.pool.jobs ++ [call]).map describe
  rw [shows.jobs,List.map_append]
  rfl

theorem sum_held {worker : Fin config.threadCount} {old : Worker} (found : system.pool.workers worker = old)
    (next : Worker) :
    ∑ other, held ((system.move worker next).pool.workers other) + held old =
      ∑ other, held (system.pool.workers other) + held next := by
  have moved := Util.sum_move held system worker next
  rwa [found] at moved

/-- A worker moves on with the job that it has. -/
theorem Shows.move (shows : Shows describe system pool) {worker : Fin config.threadCount} {old : Worker}
    (found : system.pool.workers worker = old) (next : Worker) (same : held old = held next) :
    Shows describe (system.move worker next) pool := by
  have moved := sum_held found next
  rw [same] at moved
  refine {shows with running := ?_}
  rw [add_right_cancel moved]
  exact shows.running

theorem Shows.take (shows : Shows describe system server.pool) {worker : Fin config.threadCount} {job : Nat}
    {rest taken : List Nat} (locking : system.pool.workers worker = .locking) (queue : system.pool.jobs = job::rest) :
    Shows describe {system with
      pool := {system.pool.move worker (.starting job) with jobs := rest}
      taken := taken} (take server).pool := by
  have single : ∀ state : Worker, (held state).card ≤ 1 := by
    intro state
    cases state <;> simp [held,Worker.assigned,Worker.executing]
  have free : ¬ server.pool.running.length ≥ server.pool.threadCount := by
    rw [shows.threadCount,← Multiset.coe_card,shows.running,Multiset.card_map]
    exact Nat.not_le_of_lt (Util.held_fewer single (by rw [locking]; rfl))
  have front : server.pool.jobs = describe job::rest.map describe := by rw [shows.jobs,queue,List.map_cons]
  have moved := sum_held locking (.starting job)
  have nothing : held .locking = 0 := rfl
  have one : held (.starting job) = {job} := rfl
  rw [nothing,one,add_zero] at moved
  unfold Server.take
  rw [front]
  dsimp only
  rw [if_neg free]
  refine {shows with jobs := rfl, running := ?_}
  change ((server.pool.running ++ [describe job] : List Job) : Multiset Job) =
    (∑ other, held ((system.move worker (.starting job)).pool.workers other)).map describe
  rw [moved,Multiset.map_add,Multiset.map_singleton,← shows.running,← Multiset.coe_add]
  rfl

theorem Shows.finish (shows : Shows describe system pool) {worker : Fin config.threadCount} {job : Nat}
    {finished : List Nat} (running : system.pool.workers worker = .running job) :
    ∃ index, pool.running[index]? = some (describe job) ∧
      Shows describe {system.move worker .locking with finished := finished} (pool.release index) := by
  have moved := sum_held running .locking
  have one : held (.running job) = {job} := rfl
  have nothing : held .locking = 0 := rfl
  rw [one,nothing,add_zero] at moved
  have split : (pool.running : Multiset Job) = describe job ::ₘ
      (∑ other, held ((system.move worker .locking).pool.workers other)).map describe := by
    rw [shows.running,← moved,Multiset.map_add,Multiset.map_singleton,add_comm,Multiset.singleton_add]
  have member : describe job ∈ pool.running := by
    rw [← Multiset.mem_coe,split]
    exact Multiset.mem_cons_self _ _
  obtain ⟨index,found⟩ := List.mem_iff_getElem?.mp member
  refine ⟨index,found,{shows with running := ?_}⟩
  have erased := Multiset.coe_eq_coe.mpr (eraseIdx_perm found)
  rw [split,← Multiset.cons_coe] at erased
  exact ((Multiset.cons_inj_right _).mp erased).symm

/-- Until `shutdown`, each step of the threads is a step of the server's pool, or none. -/
theorem pool_step (server : ServerState) (shows : Shows describe system pool) (closing : Util.Closing system)
    (going : next.pool.stopping = false) (step : Step action system next) :
    ∃ later, PoolMove pool later ∧ Shows describe next later := by
  have early : system.shutdown ≠ .idle → system.pool.stopping ≠ false := by
    intro begun
    rw [closing.flag.mpr begun]
    nofun
  cases step with
  | call | refuse | notify | again => exact ⟨pool,.stay,{shows with}⟩
  | @accept _ call _ _ room => exact ⟨_,.submit (describe call),shows.accept room⟩
  | notifyOne _ waiting => exact ⟨pool,.stay,{shows.move waiting .locking rfl with}⟩
  | wait locking => exact ⟨pool,.stay,shows.move locking .waiting rfl⟩
  | leave locking => exact ⟨pool,.stay,shows.move locking .returned rfl⟩
  | take locking queue =>
    let seeing : ServerState := {server with pool := pool}
    exact ⟨(take seeing).pool,@PoolMove.take seeing,@Shows.take _ _ _ seeing shows _ _ _ _ locking queue⟩
  | wake waiting => exact ⟨pool,.stay,shows.move waiting .locking rfl⟩
  | start starting => exact ⟨pool,.stay,{shows.move starting (.running _) rfl with}⟩
  | finish running =>
    obtain ⟨index,_,later⟩ := shows.finish running
    exact ⟨_,.finish index,later⟩
  | stop => cases going
  | notifyAll notifying => exact absurd going (early (by rw [notifying]; nofun))
  | join joining => exact absurd going (early (by rw [joining]; nofun))
  | discard joined => exact absurd going (early (by rw [joined]; nofun))

theorem stopping_stays (step : Step action system next) (going : next.pool.stopping = false) :
    system.pool.stopping = false := by
  cases step with
  | stop => cases going
  | _ => exact going

/-- What the threads have done so far is what some run of the server's pool does. -/
structure Simulated (describe : Nat → Job) (start : ThreadPool) (system : System config) : Prop where
  closing : Util.Closing system
  run : system.pool.stopping = false →
    ∃ pool, Relation.ReflTransGen PoolMove start pool ∧ Shows describe system pool

theorem Simulated.step (server : ServerState) {start : ThreadPool} (simulated : Simulated describe start system)
    (step : Step action system next) : Simulated describe start next := by
  refine ⟨simulated.closing.step step,fun going => ?_⟩
  obtain ⟨pool,reached,shows⟩ := simulated.run (stopping_stays step going)
  obtain ⟨later,moved,after⟩ := pool_step server shows simulated.closing going step
  exact ⟨later,reached.tail moved,after⟩

/-- Every schedule of the threads before `shutdown` is a run of the pool that the server's
procedures use, from the same pool without jobs. -/
theorem pool_refines (describe : Nat → Job) (server : ServerState)
    (new : server.pool = ⟨config.threadCount,config.maxQueueSize,[],[]⟩) {actions : List (Action config)}
    (ran : Schedule.run Util.act actions (.initial config) = some system) (going : system.pool.stopping = false) :
    ∃ pool, Relation.ReflTransGen PoolMove server.pool pool ∧ Shows describe system pool := by
  have start : Simulated describe server.pool (.initial config) := by
    refine ⟨Util.closing_initial config,fun _ => ⟨server.pool,.refl,?_⟩⟩
    rw [new]
    exact ⟨rfl,rfl,rfl,by simp [System.initial,Util.ThreadPool.new,held,Worker.assigned,Worker.executing]⟩
  have simulated := Util.run_keeps start (fun _ _ _ step before => before.step server step) ran
  exact simulated.run going

end NovaCache.Server
