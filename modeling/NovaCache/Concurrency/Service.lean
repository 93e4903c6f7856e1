import NovaCache.Concurrency.Commands
import NovaCache.Server.Strand

/-! The server with its threads, from the sockets to the files. Workers and the I/O thread run
commands; other threads sync the log, expire keys and take snapshots. -/
namespace NovaCache.Concurrency
open Sections Linearization
open Protocol (RespValue ParserLimits encode)
open Server (Input Wire wire stateAfter)
open Locking (Lock rank)

variable {config : StoreConfig}

/-- What a thread runs. A command has the number of its connection and its own number there. -/
inductive Task (config : StoreConfig)
  | command (connection sequence : Nat) (asked : Command config)
  | background (operation : Operation config)

inductive Outcome
  | answer (reply : Except Failure RespValue)
  | finished (reply : Reply)

namespace Task

def program (setup : Setup) : Task config → Program config Outcome
  | .command _ _ asked => do return .answer (← asked.program setup)
  | .background operation => do return .finished (← operation.program)

def script (setup : Setup) : Task config → Script (System config) Outcome
  | .command _ _ asked => (asked.script setup).map .answer
  | .background operation => operation.script.map .finished

end Task

theorem task_wellLocked (setup : Setup) (task : Task config) : WellLocked rank (task.program setup) := by
  cases task with
  | command connection sequence asked => exact (command_wellLocked setup asked).bind fun reply => tidy_pure _
  | background operation => exact (program_wellLocked operation).bind fun reply => tidy_pure _

theorem task_carries (setup : Setup) (task : Task config) :
    ∃ depth, Carries view .engine depth (task.program setup) (task.script setup) := by
  cases task with
  | command connection sequence asked =>
    obtain ⟨depth,carries⟩ := command_carries setup asked
    exact ⟨depth,carries.map Outcome.answer⟩
  | background operation =>
    obtain ⟨depth,carries⟩ := program_carries operation
    exact ⟨depth,carries.map Outcome.finished⟩

/-- A command begins, or has answered a request. -/
abbrev Remark := Option (RespValue × RespValue)

/-- The remarks of the server, with connection and number. -/
def remark : Server.Event → Option (Nat × Nat × Remark)
  | .started id sequence => some (id,sequence,none)
  | .executed id sequence request reply => some (id,sequence,some (request,reply))
  | _ => none

section threads
variable {Thread : Type}

/-- The same in a history of the threads. An exception in a command ends the process. -/
def said : Event Thread (Task config) Outcome → Option (Nat × Nat × Remark)
  | .call _ (.command id sequence _) => some (id,sequence,none)
  | .ret _ (.command id sequence asked) (.answer (.ok reply)) => some (id,sequence,some (asked.request,reply))
  | _ => none

/-- What a connection sees of its own commands. -/
def remarks (id : Nat) (history : List (Event Thread (Task config) Outcome)) : List (Nat × Remark) :=
  ((history.filterMap said).filter fun entry => entry.1 = id).map Prod.snd

end threads

/-- Commands one after the other, numbered from zero. -/
def dialogue (exchanges : List (RespValue × RespValue)) : List (Nat × Remark) :=
  exchanges.zipIdx.flatMap fun entry => [(entry.2,none),(entry.2,some entry.1)]

theorem dialogue_append (exchanges : List (RespValue × RespValue)) (exchange : RespValue × RespValue) :
    dialogue (exchanges ++ [exchange]) =
      dialogue exchanges ++ [(exchanges.length,none)] ++ [(exchanges.length,some exchange)] := by
  simp [dialogue,List.zipIdx_append]

/-- The commands of a connection are those that its bytes spell, each begins when the one
before it has answered, and the answers are sent in this order, if a socket that takes no more
bytes stays so. -/
structure Served (limits : ParserLimits) (wire : Wire) (remarks : List (Nat × Remark)) : Prop where
  spelled : Server.InWireOrder limits wire
  sent : ∃ exchanges, exchanges.map Prod.fst <+: wire.commands ∧
    (remarks = dialogue exchanges ∨ remarks = dialogue exchanges ++ [(exchanges.length,none)]) ∧
    (wire.StaysClosed → ∃ payloads frames, payloads.map .ok <+: exchanges.map (fun exchange => encode exchange.2) ∧
      (frames = payloads.flatten ∨ Server.Interrupted payloads frames) ∧ wire.sent <+: frames)

/-- What a strand has come to says what was remarked. -/
def Talks (own : List Server.Event) (strand : Server.Strand) : Prop :=
  let executions := (own.foldl Wire.step Wire.empty).executions
  (own.filterMap remark).map Prod.snd = dialogue (executions.map Prod.snd) ++
      (if strand.phase = .running ∨ strand.phase = .inline then [(strand.sequence,none)] else []) ∧
    executions.map Prod.fst = List.range strand.executed

theorem Talks.step {own : List Server.Event} {event : Server.Event} {one two : Server.Strand}
    (step : one.step event = some two) (talks : Talks own one) : Talks (own ++ [event]) two := by
  obtain ⟨said,executed⟩ := talks
  refine ⟨?_,?_⟩
  · rw [List.filterMap_append,List.map_append,said,List.foldl_append]
    cases event with
    | launched id sequence =>
      obtain ⟨⟨paused,rfl⟩,rfl⟩ := Server.guarded_some step
      rcases paused with phase | phase <;> simp [remark,Wire.step,phase]
    | submitted id sequence | applied id sequence =>
      obtain ⟨rfl,rfl⟩ := Server.guarded_some step
      simp [remark,Wire.step]
    | started id sequence =>
      rcases Server.Strand.step_started step with ⟨rfl,rfl⟩ | ⟨rfl,rfl⟩ <;> simp [remark,Wire.step]
    | executed id sequence request reply =>
      obtain ⟨here,rfl⟩ := Server.guarded_some step
      have count : (own.foldl Wire.step Wire.empty).executions.length = sequence := by
        rw [← List.length_map Prod.fst,executed,List.length_range]
        rcases here with rfl | rfl <;> rfl
      have added : (Wire.step (own.foldl Wire.step Wire.empty) (.executed id sequence request reply)).executions.map
          Prod.snd = (own.foldl Wire.step Wire.empty).executions.map Prod.snd ++ [(request,reply)] := List.map_append
      have begun : (if one.phase = .running ∨ one.phase = .inline then [(one.sequence,none)] else []) =
          [(sequence,(none : Remark))] := by rcases here with rfl | rfl <;> rfl
      rw [List.foldl_cons,List.foldl_nil,added,dialogue_append,List.length_map,count,begun]
      simp [remark]
    | strandEnded id =>
      obtain ⟨phase,rfl⟩ := Server.guarded_some step
      simp [remark,Wire.step,phase]
    | _ =>
      cases step
      simp [remark,Wire.step]
  · rw [List.foldl_append]
    exact Server.Strand.step_executed step _ executed

theorem strand_talks {id : Nat} {trace : List Server.Event} {strand : Server.Strand}
    (legal : Server.strand id trace = some strand) : Talks (Server.history id trace) strand :=
  Server.strand_induction Talks ⟨rfl,rfl⟩ (fun _ _ _ _ => Talks.step) legal

theorem remark_connection {event : Server.Event} {entry : Nat × Nat × Remark} (remarked : remark event = some entry) :
    event.connection = some entry.1 := by
  cases event with
  | started | executed =>
    cases remarked
    rfl
  | _ => cases remarked

/-- What one connection has of all remarks. -/
theorem remarks_history (id : Nat) (trace : List Server.Event) :
    (trace.filterMap remark).filter (fun entry => entry.1 = id) = (Server.history id trace).filterMap remark := by
  induction trace with
  | nil => rfl
  | cons event trace ih =>
    have kept : Server.history id (event::trace) =
        if event.connection = some id then event::Server.history id trace else Server.history id trace := by
      simp [Server.history,List.filter_cons]
    rw [kept,List.filterMap_cons]
    cases remarked : remark event with
    | none =>
      rw [ih]
      split
      · rw [List.filterMap_cons_none remarked]
      · rfl
    | some entry =>
      rw [remark_connection remarked,List.filter_cons,ih]
      by_cases own : entry.1 = id
      · simp [own,List.filterMap_cons_some remarked]
      · simp [own]

/-- Answers are found by their numbers. -/
theorem answered_exchange {wire : Wire} {count sequence : Nat} {payload : Bytes}
    (executed : wire.executions.map Prod.fst = List.range count) (answered : Server.Answered wire sequence payload) :
    (wire.executions.map fun execution => encode execution.2.2)[sequence]? = some (.ok payload) := by
  obtain ⟨request,reply,_,only,encoded⟩ := answered
  have member : (sequence,request,reply) ∈ wire.executions :=
    (List.mem_filter.mp (only ▸ List.mem_singleton_self _)).1
  obtain ⟨index,found⟩ := List.mem_iff_getElem?.mp member
  have number := congrArg (·[index]?) executed
  simp only [List.getElem?_map,found,Option.map_some] at number
  obtain ⟨_,same⟩ := List.getElem?_eq_some_iff.mp number.symm
  rw [List.getElem_range] at same
  subst same
  rw [List.getElem?_map,found,Option.map_some,encoded]

theorem served {server : Server.ServerConfig} {place : Server.Position} {state : Server.ServerState}
    (reached : Server.Reached server place state) (id : Nat) : Served server.parserLimits (wire id state.trace)
      (((state.trace.filterMap remark).filter fun entry => entry.1 = id).map Prod.snd) := by
  have tracked := reached.valid.tracked id
  obtain ⟨strand,follows⟩ := reached.ordered.strands id
  obtain ⟨talk,executed⟩ := strand_talks follows.legal
  have executed : (wire id state.trace).executions.map Prod.fst = List.range strand.executed := executed
  have count : (wire id state.trace).executions.length = strand.executed := by
    rw [← List.length_map Prod.fst,executed,List.length_range]
  refine ⟨tracked.ordered,(wire id state.trace).executions.map Prod.snd,?_,?_,fun closed => ?_⟩
  · refine List.prefix_iff_getElem?.mpr fun index bound => ?_
    rw [List.length_map,List.length_map] at bound
    have number := congrArg (·[index]?) executed
    simp only [List.getElem?_map,List.getElem?_eq_getElem bound,List.getElem?_range (count ▸ bound)] at number
    have requested := reached.requested _ (List.getElem_mem bound)
    rw [Option.some.inj number] at requested
    simpa using requested
  · rw [remarks_history,talk,List.length_map,count]
    split
    · next going =>
      refine .inr ?_
      have number : strand.sequence = strand.executed := by
        unfold Server.Strand.executed
        rcases going with phase | phase <;> simp [phase]
      rw [number]
      rfl
    · exact .inl (List.append_nil _)
  · obtain ⟨payloads,frames,answered,framed,sent⟩ := tracked.delivered closed
    refine ⟨payloads,frames,List.prefix_iff_getElem?.mpr fun index bound => ?_,framed,sent⟩
    rw [List.length_map] at bound
    rw [List.map_map,List.getElem_map]
    exact answered_exchange executed (answered index payloads[index] (List.getElem?_eq_getElem bound))

section threads
variable {Thread : Type} [Fintype Thread] [DecidableEq Thread]

/-- Whatever the interleaving of the threads, the commands of all connections and the work in the
background have the effects and the answers of sequential ones, in one order of their actions;
every connection has the commands that its bytes spell run one after the other, and is sent the
answers in this order as long as its socket takes bytes. -/
theorem clients_served (server : Server.ServerConfig) (inputs : List Input) (setup : Setup) (system : System config)
    (history : List (Event Thread (Task config) Outcome))
    (state : State Thread (Task config) (Lock config) (Content config) Counters Outcome)
    (run : Simulation.Run (Step (Task.program setup)) (.start (view system)) history state)
    (same : history.filterMap said = (stateAfter server inputs).trace.filterMap remark) :
    (∃ object, Simulation.Run (Object.Step (Task.script setup) Prod.fst) (.start system) history object) ∧
    (∀ id, Served server.parserLimits (wire id (stateAfter server inputs).trace) (remarks id history)) ∧
    ∀ (command : Command config) (alone : System config), (command.script setup).run alone = returned alone.1
      (Commands.execute command.request command.environment (setup.context command.stats alone)) := by
  refine ⟨?_,fun id => ?_,command_run setup⟩
  · obtain ⟨object,_,shown,_⟩ := run_scripted (task_wellLocked setup) (task_carries setup) run
    exact ⟨object,shown⟩
  · obtain ⟨place,reached⟩ := Server.run_moment server inputs
    rw [remarks,same]
    exact served reached id

def oneWorker : Server.ServerConfig := ⟨1,10,1,1000,0,.default,3⟩

/-- A connection asks for `SET k v`, a worker answers, and three bytes of the answer are sent. -/
def setInputs : List Input :=
  [.others [],.ready [⟨3,⟨true,false⟩,false,false⟩],.others [],.others [],.others [],.accepted 7,.succeeded,.clock 0,
    .succeeded,.others [],.received [0x2A,0x33,0x0D,0x0A,0x24,0x33,0x0D,0x0A,0x53,0x45,0x54,0x0D,0x0A,0x24,0x31,0x0D,0x0A,
      0x6B,0x0D,0x0A,0x24,0x31,0x0D,0x0A,0x76,0x0D,0x0A],.clock 0,.others [],.others [],.others [],
    .others [.take,.finish 0 (.simple [0x4F,0x4B])],.blocked,.others [],.clock 0,.sent 3,.clock 0]

def unlockOne (keys : List Bytes) : Locking.Unlocking keys oneShard := ⟨_,List.Perm.refl _⟩

def setCommand : Command oneShard :=
  ⟨.array (some [.bulk (some [0x53,0x45,0x54]),.bulk (some [0x6B]),.bulk (some [0x76])]),
    ⟨0,0,⟨0,0⟩,⟨0,0⟩,⟨[],true⟩⟩,none,unlockOne⟩

-- A cycle of active expiry begins while the command is under way.
theorem set_served : ∃ object,
    Simulation.Run (Object.Step (Task.script ⟨false,[],0,1⟩) Prod.fst) (.start emptySystem)
      [.call false (.command 1 0 setCommand),.call true (.background (.activeExpireCycle 0 (fun _ _ => 0) 0)),
        .ret true (.background (.activeExpireCycle 0 (fun _ _ => 0) 0)) (.finished (.count 0)),
        .ret false (.command 1 0 setCommand) (.answer (.ok (.simple [0x4F,0x4B])))] object ∧
    Served .default (wire 1 (stateAfter oneWorker setInputs).trace)
      [(0,none),(0,some (setCommand.request,.simple [0x4F,0x4B]))] ∧
    (wire 1 (stateAfter oneWorker setInputs).trace).StaysClosed ∧
    (wire 1 (stateAfter oneWorker setInputs).trace).sent = [0x2B,0x4F,0x4B] := by
  have run : ∃ state, Simulation.Run (Step (Task.program ⟨false,[],0,1⟩)) (.start (view emptySystem))
      [.call false (.command 1 0 setCommand),.call true (.background (.activeExpireCycle 0 (fun _ _ => 0) 0)),
        .ret true (.background (.activeExpireCycle 0 (fun _ _ => 0) 0)) (.finished (.count 0)),
        .ret false (.command 1 0 setCommand) (.answer (.ok (.simple [0x4F,0x4B])))] state := by
    apply Exists.intro
    apply Simulation.Run.go (Step.call rfl)
    apply Simulation.Run.go (Step.call rfl)
    apply run_advances (List.replicate 3 false) rfl
    apply Simulation.Run.go (Step.ret rfl)
    apply run_advances (List.replicate 3 false) rfl
    apply Simulation.Run.go (Step.ret rfl)
    apply Simulation.Run.rest
  obtain ⟨state,run⟩ := run
  obtain ⟨⟨object,shown⟩,served,_⟩ := clients_served oneWorker setInputs _ emptySystem _ state run rfl
  exact ⟨object,shown,served 1,by decide +kernel,by decide +kernel⟩

end threads

end NovaCache.Concurrency
