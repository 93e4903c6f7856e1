import NovaCache.Server.Isolation
import NovaCache.Commands.Outcome

/-! The jobs that `launch_strand` starts, with the commands of the registry in them. A job has
no handler for exceptions: a command that is not logged ends the worker or leaves `run`, and
every other command leaves one completion. -/
namespace NovaCache.Server
open Protocol Interaction Commands

/-- The end of a job in a worker. -/
def workerStep (index : Nat) : Except NovaCache.Failure RespValue → OtherStep
  | .ok reply => .finish index reply
  | .error _ => .throw

/-- The end of a job on the I/O thread. -/
def inlineAnswer : Except NovaCache.Failure RespValue → Input
  | .ok reply => .reply reply
  | .error _ => .failed

/-- The job returns and has left one completion, with the reply of its command or, if that has
thrown, with an error reply. -/
def Completes (job : Job) (outcome : Except NovaCache.Failure RespValue) (server : ServerState)
    (result : Outcome Input Unit × ServerState) : Prop :=
  ∃ reply payload rest, encode reply = .ok payload ∧
    (outcome = .ok reply ∨ ∃ failure text, outcome = .error failure ∧ reply = .error text) ∧
    result.1 = .done () rest ∧ result.2.completions = server.completions ++ [⟨job.connectionId,job.sequence,payload⟩]

/-- A job that encodes its reply and completes, on either path. -/
theorem completes_encoded {job : Job} {reply : RespValue} {server start freed : ServerState} {proc : Bytes → ServerProc Unit}
    {inputs : List Input}
    (ends : ∀ payload, (proc payload).run start inputs = (.done () inputs,complete job reply payload freed))
    (same : freed.completions = server.completions) :
    Completes job (.ok reply) server ((match encode reply with
      | .error _ => throwFrom .command
      | .ok payload => proc payload : ServerProc Unit).run start inputs) ↔ Replied (.ok reply) := by
  cases encoded : encode reply with
  | error failure =>
    refine iff_of_false ?_ ?_
    · rintro ⟨_,_,_,_,_,returned,_⟩
      cases returned
    · rintro ⟨_,payload,⟨⟩,returned⟩
      cases encoded.symm.trans returned
  | ok payload =>
    refine iff_of_true ⟨reply,payload,inputs,encoded,Or.inl rfl,?_⟩ ⟨reply,payload,rfl,encoded⟩
    dsimp only
    rw [ends payload,← same]
    exact ⟨rfl,rfl⟩

theorem completes_thrown (job : Job) (failure : NovaCache.Failure) (server start : ServerState) (inputs : List Input) :
    Completes job (.error failure) server ((throwFrom .command : ServerProc Unit).run start inputs) ↔
      Replied (.error failure) := by
  refine iff_of_false ?_ ?_
  · rintro ⟨_,_,_,_,_,returned,_⟩
    cases returned
  · rintro ⟨_,_,returned,_⟩
    cases returned

theorem worker_completes_iff {server : ServerState} {job : Job} {index : Nat} (running : server.pool.running[index]? = some job)
    (outcome : Except NovaCache.Failure RespValue) (inputs : List Input) :
    Completes job outcome server ((otherStep (workerStep index outcome)).run server inputs) ↔ Replied outcome := by
  cases outcome with
  | error failure => exact completes_thrown job failure server server inputs
  | ok reply =>
    rw [workerStep,otherStep,Proc.bind_run]
    dsimp only [Proc.current]
    rw [running]
    exact completes_encoded (fun _ => rfl) rfl

theorem inline_completes_iff (server : ServerState) (job : Job) (outcome : Except NovaCache.Failure RespValue)
    (inputs : List Input) :
    Completes job outcome server ((runInline job).run server (inlineAnswer outcome::inputs)) ↔ Replied outcome := by
  cases outcome with
  | error failure => exact completes_thrown job failure server _ inputs
  | ok reply => exact completes_encoded (fun _ => rfl) rfl

/-- Steps of the other threads in which every job runs a command that is logged if it has to be. -/
inductive OtherStep.Served : OtherStep → Prop
  | take : Served .take
  | stop : Served .stop
  | job {stored : StoreConfig} (index : Nat) (request : RespValue) (environment : Environment)
      (context : CommandContext stored) (logged : ¬ Fails request environment context) :
      Served (workerStep index (execute request environment context).1)

/-- No call fails, and every command is logged if it has to be. -/
inductive Input.Served : Input → Prop
  | others {steps : List OtherStep} (served : ∀ step ∈ steps, step.Served) : Served (.others steps)
  | inline {stored : StoreConfig} (request : RespValue) (environment : Environment) (context : CommandContext stored)
      (logged : ¬ Fails request environment context) : Served (inlineAnswer (execute request environment context).1)
  | clock (now : Int) : Served (.clock now)
  | succeeded : Served .succeeded
  | blocked : Served .blocked
  | closed : Served .closed
  | ready (events : List FiredEvent) : Served (.ready events)
  | accepted (fd : Nat) : Served (.accepted fd)
  | received (bytes : Bytes) : Served (.received bytes)
  | sent (count : Nat) : Served (.sent count)

theorem OtherStep.Served.faultless {step : OtherStep} (served : step.Served) : step.faulty = false := by
  cases served with
  | take | stop => rfl
  | job index request environment context logged =>
    obtain ⟨reply,payload,returned,encoded⟩ := (execute_replied_iff request environment context).mpr logged
    rw [returned,workerStep,OtherStep.faulty,encoded]

theorem Input.Served.faultless {input : Input} (served : input.Served) : input.faulty = false := by
  cases served with
  | others steps =>
    rw [Input.faulty,List.any_eq_false]
    intro step member
    rw [(steps step member).faultless]
    exact Bool.false_ne_true
  | inline request environment context logged =>
    obtain ⟨reply,payload,returned,encoded⟩ := (execute_replied_iff request environment context).mpr logged
    rw [returned,inlineAnswer,Input.faulty,encoded]
  | _ => rfl

theorem Strand.step_first {one two : Strand} {event : Event} (step : one.step event = some two) :
    one.first ≤ two.first := by
  cases event with
  | launched id sequence =>
    obtain ⟨⟨_,rfl⟩,rfl⟩ := guarded_some step
    exact Nat.le_succ _
  | submitted id sequence | applied id sequence =>
    obtain ⟨rfl,rfl⟩ := guarded_some step
    exact Nat.le_refl _
  | started id sequence =>
    rcases Strand.step_started step with ⟨rfl,rfl⟩ | ⟨rfl,rfl⟩ <;> exact Nat.le_refl _
  | executed id sequence request reply =>
    obtain ⟨here,rfl⟩ := guarded_some step
    rcases here with rfl | rfl <;> exact Nat.le_refl _
  | strandEnded id =>
    obtain ⟨phase,rfl⟩ := guarded_some step
    rw [Strand.first,phase]
    exact Nat.le_refl _
  | _ =>
    cases step
    exact Nat.le_refl _

theorem strand_launched {id : Nat} {trace : List Event} {moved : Strand} (legal : strand id trace = some moved)
    {sequence : Nat} (launched : .launched id sequence ∈ trace) : sequence < moved.first := by
  refine strand_induction (fun own moved => ∀ sequence, .launched id sequence ∈ own → sequence < moved.first) nofun ?_
    legal sequence (List.mem_filter.mpr ⟨launched,by simp [Event.connection]⟩)
  intro own event one two step before sequence member
  rcases List.mem_append.mp member with old | new
  · exact Nat.lt_of_lt_of_le (before sequence old) (Strand.step_first step)
  · obtain rfl := List.mem_singleton.mp new
    obtain ⟨⟨_,rfl⟩,rfl⟩ := guarded_some step
    exact Nat.lt_succ_self _

/-- The command waits in the pool or runs in a worker, or the I/O thread hands it over or runs
it inline. -/
def UnderWay (server : ServerState) (id sequence : Nat) : Prop :=
  sequence ∈ sequencesOf id server.pool.jobs ∨ sequence ∈ sequencesOf id server.pool.running ∨
    strand id server.trace = some ⟨.launched,sequence⟩ ∨ strand id server.trace = some ⟨.inline,sequence⟩

/-- A command that was launched is under way or was executed once. -/
theorem Reached.launched {config : ServerConfig} {place : Position} {server : ServerState}
    (reached : Reached config place server) {id sequence : Nat} (launched : .launched id sequence ∈ server.trace) :
    UnderWay server id sequence ∨ ((wire id server.trace).executions.map Prod.fst).count sequence = 1 := by
  obtain ⟨⟨phase,latest⟩,follows⟩ := reached.ordered.strands id
  have below := strand_launched follows.legal launched
  have once : sequence < (Strand.mk phase latest).executed →
      ((wire id server.trace).executions.map Prod.fst).count sequence = 1 := by
    intro executed
    rw [strand_executed follows.legal]
    exact List.count_eq_one_of_mem List.nodup_range (List.mem_range.mpr executed)
  by_cases executed : sequence < (Strand.mk phase latest).executed
  · exact Or.inr (once executed)
  left
  cases phase with
  | idle | completed | applied => exact absurd below executed
  | launched =>
    obtain rfl : sequence = latest := Nat.le_antisymm (Nat.le_of_lt_succ below) (Nat.le_of_not_lt executed)
    exact Or.inr (Or.inr (Or.inl follows.legal))
  | inline =>
    obtain rfl : sequence = latest := Nat.le_antisymm (Nat.le_of_lt_succ below) (Nat.le_of_not_lt executed)
    exact Or.inr (Or.inr (Or.inr follows.legal))
  | submitted =>
    obtain rfl : sequence = latest := Nat.le_antisymm (Nat.le_of_lt_succ below) (Nat.le_of_not_lt executed)
    exact Or.inl (follows.queued ▸ List.mem_singleton_self _)
  | running =>
    obtain rfl : sequence = latest := Nat.le_antisymm (Nat.le_of_lt_succ below) (Nat.le_of_not_lt executed)
    exact Or.inr (Or.inl (follows.running ▸ List.mem_singleton_self _))

/-- A job leaves exactly one completion, in a worker or inline, if and only if its command does
not fail to be logged. At every moment of every run each job that was launched is under way or
was executed once; the loop goes on until it is stopped, if no command fails to be logged and no
call fails; and between two iterations a connection with commands in its queue has one before
them that is under way or completed. -/
theorem launched_jobs_complete {stored : StoreConfig} (server : ServerState) (job : Job) (environment : Environment)
    (context : CommandContext stored) (config : ServerConfig) (inputs : List Input) :
    let outcome := (execute job.request environment context).1
    (∀ index, server.pool.running[index]? = some job →
      (Completes job outcome server ((otherStep (workerStep index outcome)).run server inputs) ↔
        ¬ Fails job.request environment context)) ∧
    (Completes job outcome server ((runInline job).run server (inlineAnswer outcome::inputs)) ↔
      ¬ Fails job.request environment context) ∧
    (∀ id sequence, .launched id sequence ∈ (stateAfter config inputs).trace →
      UnderWay (stateAfter config inputs) id sequence ∨
        ((wire id (stateAfter config inputs).trace).executions.map Prod.fst).count sequence = 1) ∧
    ((∀ input ∈ inputs, input.Served) →
      match ((run config).run (ServerState.initial config) inputs).1 with
      | .paused => True
      | .done _ _ => (stateAfter config inputs).stopping = true
      | .raised | .undefined => False) ∧
    ∀ rounds between, iterations config rounds = some between → ∀ fd connection,
      between.connections.lookup fd = some connection → connection.commandQueue ≠ [] →
        (outstanding between connection.id).length = 1 := by
  intro outcome
  have replied := execute_replied_iff job.request environment context
  refine ⟨?_,?_,?_,?_,?_⟩
  · intro index running
    exact (worker_completes_iff running outcome inputs).trans replied
  · exact (inline_completes_iff server job outcome inputs).trans replied
  · intro id sequence launched
    obtain ⟨place,reached⟩ := run_moment config inputs
    exact reached.launched launched
  · intro served
    exact run_calm fun input member => (served input member).faultless
  · intro rounds between ran fd connection found waiting
    have reached := (iterations_at ran).reached
    have going := reached.going fd connection nofun found waiting
    obtain ⟨moved,follows⟩ := reached.ordered.strands connection.id
    have counted := (follows.outstanding found (iterations_boundary ran found)).1
    rwa [going] at counted

/-- The request `SET k v` on the wire, and the job of it as the first command of a connection. -/
def setFrame : Bytes := ascii "*3\r\n$3\r\nSET\r\n$1\r\nk\r\n$1\r\nv\r\n"

def setJob : Job := ⟨1,0,.array (some [.bulk (some (ascii "SET")),.bulk (some (ascii "k")),.bulk (some (ascii "v"))])⟩

/-- A new directory under `fsync=always`. -/
def directory : CommandContext Persistence.twoShards :=
  ⟨Persistence.blank,none,some Persistence.opened,ascii "0.1.0",0,1⟩

def answeredBy (io : Persistence.Io) : Environment := ⟨0,0,⟨0,0⟩,⟨0,0⟩,io⟩

def setOutcome (io : Persistence.Io) : Except NovaCache.Failure RespValue :=
  (execute setJob.request (answeredBy io) directory).1

/-- `SET k v` and `PING` arrive in one chunk. -/
def pipelining : List Input :=
  accepting 7 ++ [.others [],.received (setFrame ++ ping),.clock 0,.others [],.others [],.others [],.others [],.others [],
    .blocked]

theorem setJob_logged : ¬ Fails setJob.request (answeredBy ⟨[],true⟩) directory := by
  rintro ⟨engine,mutation,attached,_,closed | short | ⟨_,unsynced⟩⟩
  · cases attached
    cases closed
  · exact absurd short (Nat.lt_irrefl _)
  · cases unsynced

theorem pipelining_served : ∀ input ∈ pipelining ++ [.others [.take,workerStep 0 (setOutcome ⟨[],true⟩)]], input.Served := by
  have idle : (Input.others []).Served := .others (List.forall_mem_nil _)
  have ends : ∀ step ∈ [.take,workerStep 0 (setOutcome ⟨[],true⟩)], step.Served :=
    List.forall_mem_cons.mpr ⟨.take,List.forall_mem_singleton.mpr (.job 0 _ _ _ setJob_logged)⟩
  simp only [pipelining,accepting,List.cons_append,List.nil_append,List.forall_mem_cons]
  exact ⟨idle,.ready _,idle,idle,idle,.accepted 7,.succeeded,.clock 0,.succeeded,idle,.received _,.clock 0,idle,idle,idle,
    idle,idle,.blocked,.others ends,List.forall_mem_nil _⟩

/-- A worker that runs the job, and nothing else. -/
def working : ServerState := {ServerState.initial (listening 2) with pool := ⟨1,2,[],[setJob]⟩}

theorem launched_jobs_complete_set :
    Completes setJob (setOutcome ⟨[],true⟩) working
      ((otherStep (workerStep 0 (setOutcome ⟨[],true⟩))).run working pipelining) ∧
    Completes setJob (setOutcome ⟨[],true⟩) working
      ((runInline setJob).run working (inlineAnswer (setOutcome ⟨[],true⟩)::pipelining)) ∧
    (.launched 1 0 ∈ (stateAfter (listening 2) pipelining).trace ∧
      (UnderWay (stateAfter (listening 2) pipelining) 1 0 ∨
        ((wire 1 (stateAfter (listening 2) pipelining).trace).executions.map Prod.fst).count 0 = 1)) ∧
    (match ((run (listening 2)).run (ServerState.initial (listening 2))
        (pipelining ++ [.others [.take,workerStep 0 (setOutcome ⟨[],true⟩)]])).1 with
      | .paused => True
      | .done _ _ => (stateAfter (listening 2)
          (pipelining ++ [.others [.take,workerStep 0 (setOutcome ⟨[],true⟩)]])).stopping = true
      | .raised | .undefined => False) ∧
    ∃ server connection, iterations (listening 2) [pipelining ++ [.others [],.others [],.others [],.blocked,.others []]] =
        some server ∧ server.connections.lookup 7 = some connection ∧ connection.commandQueue ≠ [] ∧
      (outstanding server connection.id).length = 1 := by
  obtain ⟨worker,inline,once,_,between⟩ := launched_jobs_complete working setJob (answeredBy ⟨[],true⟩) directory
    (listening 2) pipelining
  obtain ⟨_,_,_,served,_⟩ := launched_jobs_complete working setJob (answeredBy ⟨[],true⟩) directory (listening 2)
    (pipelining ++ [.others [.take,workerStep 0 (setOutcome ⟨[],true⟩)]])
  have seen : (stateAfter (listening 2) pipelining).trace.any (fun
      | .launched 1 0 => true
      | _ => false) = true := by decide +kernel
  have launched : .launched 1 0 ∈ (stateAfter (listening 2) pipelining).trace := by
    obtain ⟨event,member,first⟩ := List.any_eq_true.mp seen
    split at first
    · exact member
    · cases first
  refine ⟨(worker 0 rfl).mpr setJob_logged,inline.mpr setJob_logged,⟨launched,once 1 0 launched⟩,
    served pipelining_served,?_⟩
  obtain ⟨server,connection,ran,found,passed⟩ := @observe_true (listening 2) 7
    [pipelining ++ [.others [],.others [],.others [],.blocked,.others []]]
    (fun _ connection => !connection.commandQueue.isEmpty) (by decide +kernel)
  have waiting : connection.commandQueue ≠ [] := by simpa using passed
  exact ⟨server,connection,ran,found,waiting,between _ server ran 7 connection found waiting⟩

/-- The descriptor still has commands in its queue, no completion waits, and the last event is
the exception of a command. -/
def leftWaiting (server : ServerState) : Bool :=
  match server.connections.lookup 7,server.trace.getLast? with
  | some connection,some (.raised .command) => !connection.commandQueue.isEmpty && server.completions.isEmpty
  | _,_ => false

/-- A SET whose `fsync` fails throws, and the job leaves no completion: the exception ends the
process while `PING` is still in the queue, and it also leaves the I/O thread. -/
theorem unsynced_set_leaves_run : setOutcome ⟨[],false⟩ = .error (.systemError "fsync(WAL)") ∧
    (∃ server connection, raisedState (listening 2)
        (pipelining ++ [.others [.take,workerStep 0 (setOutcome ⟨[],false⟩)]]) = some server ∧
      server.connections.lookup 7 = some connection ∧ connection.commandQueue ≠ [] ∧ server.completions = [] ∧
      server.trace.getLast? = some (.raised .command)) ∧
    ((runInline setJob).run working [inlineAnswer (setOutcome ⟨[],false⟩)]).1 = .raised := by
  have thrown : (match setOutcome ⟨[],false⟩ with
      | .error failure => decide (failure = .systemError "fsync(WAL)")
      | .ok _ => false) = true := by decide +kernel
  have failed : setOutcome ⟨[],false⟩ = .error (.systemError "fsync(WAL)") := by
    split at thrown
    · next failure raised => rw [raised,of_decide_eq_true thrown]
    · cases thrown
  rw [failed]
  refine ⟨rfl,?_,rfl⟩
  have seen : (raisedState (listening 2)
      (pipelining ++ [.others [.take,workerStep 0 (.error (.systemError "fsync(WAL)"))]])).any leftWaiting = true := by
    decide +kernel
  obtain ⟨server,ran,passed⟩ := (Option.any_eq_true _ _).mp seen
  unfold leftWaiting at passed
  split at passed
  · next connection found last =>
    obtain ⟨waiting,none⟩ := Bool.and_eq_true_iff.mp passed
    exact ⟨server,connection,ran,found,by simpa using waiting,List.isEmpty_iff.mp none,last⟩
  · cases passed

end NovaCache.Server
