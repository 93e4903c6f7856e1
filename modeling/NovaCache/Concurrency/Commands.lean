import NovaCache.Concurrency.Linearizable
import NovaCache.Commands.Calls

/-! Commands as the workers run them. A handler reads its arguments, and then it has its reply
or calls one operation of the store or the engine. -/
namespace NovaCache.Concurrency
open Sections Linearization
open Protocol (RespValue)
open Persistence (PersistenceEngine)
open Commands (Call CommandContext Environment Response Stats ascii)
open Locking (Unlocking rank)

variable {config : StoreConfig}

/-- What the server puts into the context of every command. -/
structure Setup where
  persistent : Bool
  version : Bytes
  tcpPort : UInt16
  workerCount : Nat

/-- A request with what its command meets: the clocks, the calls behind the log, the counters
that INFO reads, and the orders in which several guards are left. -/
structure Command (config : StoreConfig) where
  request : RespValue
  environment : Environment
  stats : Option Stats
  unlocking : (keys : List Bytes) → Unlocking keys config

/-- A failure passes through the handler. No command asks for the results named last. -/
def answered : Reply → Except Failure RespValue
  | .done => .ok (.simple (ascii "OK"))
  | .value found => .ok (Commands.shown found)
  | .flag found => .ok (Commands.changed found)
  | .seconds left => .ok (.integer (Int64.ofInt left))
  | .count number => .ok (Commands.count number)
  | .keys result => .ok (Commands.listed result)
  | .failed failure => .error failure
  | .wall _ | .entries _ => .error .outOfRange

namespace Command

/-- The reply of a handler that calls nothing, or the operation it calls. -/
def handled (setup : Setup) (command : Command config) : Call → RespValue ⊕ Operation config
  | .refused text => .inl (.error text)
  | .pong => .inl (.simple (ascii "PONG"))
  | .message text => .inl (.bulk (some text))
  | .info => .inl (.bulk (some (command.stats.elim [] fun stats =>
      stats.renderInfo setup.version setup.tcpPort setup.workerCount config.shardCount)))
  | .get key => .inr (.get key command.environment.first.now)
  | .existsMany names => .inr (.existsMany names (command.unlocking names) command.environment.first.now)
  | .ttl key => .inr (.ttl key command.environment.first.now)
  | .keys pattern => .inr (.keys pattern command.environment.first.now)
  | .mutate (.set key value) =>
    .inr (if setup.persistent then .durableSet command.environment.io key value command.environment.first
      else .set key (.string value) none command.environment.first)
  | .mutate (.del names) =>
    .inr (if setup.persistent
      then .durableDel command.environment.io names (command.unlocking names) command.environment.first.now
      else .delMany names (command.unlocking names) command.environment.first.now)
  | .mutate (.expire key seconds) =>
    .inr (if setup.persistent
      then .durableExpire command.environment.io key seconds command.environment.wallNow command.environment.first
        command.environment.second
      else .expire key seconds command.environment.wallNow command.environment.first command.environment.second)

def work (setup : Setup) (command : Command config) : RespValue ⊕ Operation config :=
  command.handled setup (Commands.resolve command.request command.environment.steady)

def program (setup : Setup) (command : Command config) : Program config (Except Failure RespValue) :=
  match command.work setup with
  | .inl reply => return .ok reply
  | .inr operation => do return answered (← operation.program)

def script (setup : Setup) (command : Command config) : Script (System config) (Except Failure RespValue) :=
  match command.work setup with
  | .inl reply => .done (.ok reply)
  | .inr operation => operation.script.map answered

end Command

theorem command_wellLocked (setup : Setup) (command : Command config) : WellLocked rank (command.program setup) := by
  unfold Command.program
  cases command.work setup with
  | inl reply => exact tidy_pure _
  | inr operation => exact (program_wellLocked operation).bind fun reply => tidy_pure _

theorem command_carries (setup : Setup) (command : Command config) :
    ∃ depth, Carries view .engine depth (command.program setup) (command.script setup) := by
  unfold Command.program Command.script
  cases command.work setup with
  | inl reply => exact ⟨0,carries_done _ 0⟩
  | inr operation =>
    obtain ⟨depth,carries⟩ := program_carries operation
    exact ⟨depth,carries.map answered⟩

/-- What the references of the context lead to. -/
def Setup.context (setup : Setup) (stats : Option Stats) (system : System config) : CommandContext config :=
  ⟨system.2,stats,if setup.persistent then some system.1 else none,setup.version,setup.tcpPort,setup.workerCount⟩

/-- The reply, and the engine and the store that a response leaves. -/
def returned (engine : PersistenceEngine) (response : Response config) : Except Failure RespValue × System config :=
  (response.1,response.2.persistence.getD engine,response.2.store)

/-- The actions of a command, one after the other, are the sequential command. -/
theorem command_run (setup : Setup) (command : Command config) (system : System config) :
    (command.script setup).run system = returned system.1
      (Commands.execute command.request command.environment (setup.context command.stats system)) := by
  obtain ⟨engine,store⟩ := system
  obtain ⟨persistent,version,tcpPort,workerCount⟩ := setup
  have kept : (if persistent then some engine else none).getD engine = engine := by cases persistent <;> rfl
  rw [Commands.execute_eq,Command.script,Command.work]
  cases Commands.resolve command.request command.environment.steady with
  | refused | pong | message => exact congrArg (fun engine => (_,engine,store)) kept.symm
  | info =>
    rw [Command.handled,Call.run,Commands.info,Setup.context]
    cases command.stats <;> exact congrArg (fun engine => (_,engine,store)) kept.symm
  | get | existsMany | ttl | keys =>
    simp only [Command.handled,Script.run_map,script_run]
    exact congrArg (fun engine => (_,engine,_)) kept.symm
  | mutate mutation =>
    cases persistent with
    | false =>
      cases mutation with
      | set | del | expire => rfl
    | true =>
      rw [Call.run]
      cases mutation with
      | set key value =>
        simp only [Command.handled,if_true,Script.run_map,script_run,Operation.apply,PersistenceEngine.durableSet,
          Setup.context,Persistence.Mutation.logged,Persistence.Logged.opcode,Persistence.Logged.payload]
        rcases engine.log command.environment.io .set _ with ⟨failure | ⟨⟩,next⟩ <;> rfl
      | del names =>
        simp only [Command.handled,if_true,Script.run_map,script_run,Operation.apply,PersistenceEngine.durableDel,
          Setup.context,Persistence.Mutation.logged,Persistence.Logged.opcode,Persistence.Logged.payload]
        rcases engine.log command.environment.io .del _ with ⟨failure | ⟨⟩,next⟩ <;> rfl
      | expire key seconds =>
        simp only [Command.handled,if_true,Script.run_map,script_run,Operation.apply,PersistenceEngine.durableExpire,
          Setup.context,Persistence.Mutation.logged,Persistence.Logged.opcode,Persistence.Logged.payload]
        rcases engine.log command.environment.io .expire _ with ⟨failure | ⟨⟩,next⟩ <;> rfl

end NovaCache.Concurrency
