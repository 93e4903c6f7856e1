import NovaCache.Interaction
import NovaCache.Protocol.Parser
import Mathlib.Data.List.AList

/-! The state of the server: connections owned by the I/O thread, the worker pool and the
completions shared with it, and a trace of what happened on every connection.
Identifiers and sequence numbers are 64-bit counters that start at 1 and 0, so they do
not wrap in any run and are modelled as natural numbers. Statistics are left out. -/
namespace NovaCache.Server
open Protocol Interaction

structure ServerConfig where
  workers : Nat
  maxConnections : Nat
  workerQueueLimit : Nat
  maxOutputBufferBytes : Nat
  idleTimeout : Int
  parserLimits : ParserLimits
  /-- The descriptor of the listening socket. -/
  listener : Nat

structure Interest where
  read : Bool
  write : Bool
  deriving DecidableEq, Repr

structure FiredEvent where
  fd : Nat
  ready : Interest
  error : Bool
  hangup : Bool
  deriving DecidableEq, Repr

structure QueuedCommand where
  sequence : Nat
  request : RespValue

structure Connection where
  id : Nat
  interest : Interest
  output : Bytes
  parser : Parser
  nextRequestSeq : Nat
  nextResponseSeq : Nat
  pendingResponses : AList (fun _ : Nat => Bytes)
  commandQueue : List QueuedCommand
  strandRunning : Bool
  inflight : Nat
  readClosed : Bool
  closing : Bool
  lastActivity : Int

structure Job where
  connectionId : Nat
  sequence : Nat
  request : RespValue

structure Completion where
  connectionId : Nat
  sequence : Nat
  payload : Bytes
  deriving DecidableEq, Repr

/-- The pool with the jobs that its threads are executing. It stops only after the loop
of `run` has ended. -/
structure ThreadPool where
  threadCount : Nat
  maxQueueSize : Nat
  jobs : List Job
  running : List Job

namespace ThreadPool

def trySubmit (pool : ThreadPool) (job : Job) : Bool × ThreadPool :=
  if pool.jobs.length ≥ pool.maxQueueSize then (false,pool)
  else (true,{pool with jobs := pool.jobs ++ [job]})

def queuedJobs (pool : ThreadPool) : Nat := pool.jobs.length

def release (pool : ThreadPool) (index : Nat) : ThreadPool :=
  {pool with running := pool.running.eraseIdx index}

end ThreadPool

theorem lookup_insert {Item : Type} (items : AList (fun _ : Nat => Item)) (key other : Nat) (item : Item) :
    (items.insert key item).lookup other = if other = key then some item else items.lookup other := by
  split
  · next equal => rw [equal,AList.lookup_insert]
  · next different => rw [AList.lookup_insert_ne different]

theorem lookup_erase_some {Item : Type} {items : AList (fun _ : Nat => Item)} {key other : Nat} {item : Item}
    (found : (items.erase key).lookup other = some item) : other ≠ key ∧ items.lookup other = some item := by
  by_cases same : other = key
  · rw [same,AList.lookup_erase] at found
    cases found
  · exact ⟨same,(AList.lookup_erase_ne same).symm.trans found⟩

/-- Places where the I/O thread looks at a connection and decides how to go on. -/
inductive Place
  | endOfStream
  | protocolError
  | parsingStopped
  | readingStopped
  | interestWithheld
  | readAgain
  | awaiting
  | finished
  | idle (now : Int)
  | shutdown

/-- Where an exception comes from: a socket of a connection, a command, or another call. -/
inductive Cause
  | receive (id : Nat)
  | send (id : Nat)
  | command
  | call

/-- What happens on the connection with an identifier, and on the listener. The trace is a
record for statements about runs, and no procedure looks at it. An event `met` keeps the
connection as it was found at a place. -/
inductive Event
  | accepted (id fd : Nat)
  | acceptBlocked
  | acceptFull
  | reported (event : FiredEvent)
  | received (id : Nat) (bytes : Bytes)
  | readBlocked (id : Nat)
  | endOfStream (id : Nat)
  | parsed (id : Nat) (request : RespValue)
  | protocolError (id : Nat)
  | launched (id sequence : Nat)
  | submitted (id sequence : Nat)
  | started (id sequence : Nat)
  | executed (id sequence : Nat) (request reply : RespValue)
  | applied (id sequence : Nat)
  | strandEnded (id : Nat)
  | overflowed (id : Nat)
  | sent (id : Nat) (bytes : Bytes)
  | sendClosed (id : Nat)
  | closed (id : Nat)
  | met (place : Place) (connection : Connection)
  | raised (cause : Cause)

def Event.connection : Event → Option Nat
  | .acceptBlocked | .acceptFull | .reported _ | .raised _ => none
  | .accepted id _ | .received id _ | .readBlocked id | .endOfStream id | .parsed id _ | .protocolError id
  | .launched id _ | .submitted id _ | .started id _ | .executed id _ _ _ | .applied id _ | .strandEnded id
  | .overflowed id | .sent id _ | .sendClosed id | .closed id => some id
  | .met _ connection => some connection.id

def history (id : Nat) (trace : List Event) : List Event := trace.filter (fun event => event.connection = some id)

/-- What a connection has come to: the bytes read from it, the commands parsed from them,
every execution of one of these with its sequence number, request and reply, the bytes
sent, whether its socket has reported that it takes no more, and whether it has taken
bytes after that. -/
structure Wire where
  received : Bytes
  commands : List RespValue
  executions : List (Nat × RespValue × RespValue)
  sent : Bytes
  broken : Bool
  resumed : Bool

namespace Wire

def empty : Wire := ⟨[],[],[],[],false,false⟩

def step (wire : Wire) : Event → Wire
  | .received _ bytes => {wire with received := wire.received ++ bytes}
  | .parsed _ request => {wire with commands := wire.commands ++ [request]}
  | .executed _ sequence request reply =>
    {wire with executions := wire.executions ++ [(sequence,request,reply)]}
  | .sent _ bytes => {wire with sent := wire.sent ++ bytes, resumed := wire.resumed || wire.broken}
  | .sendClosed _ => {wire with broken := true}
  | _ => wire

end Wire

def wire (id : Nat) (trace : List Event) : Wire := (history id trace).foldl Wire.step Wire.empty

structure ServerState where
  connections : AList (fun _ : Nat => Connection)
  pool : ThreadPool
  completions : List Completion
  /-- The batch that `drain_completions` is applying. -/
  draining : List Completion
  nextConnectionId : Nat
  stopping : Bool
  trace : List Event

def ServerState.initial (config : ServerConfig) : ServerState :=
  ⟨∅,⟨config.workers,config.workerQueueLimit,[],[]⟩,[],[],1,false,[]⟩

/-- Steps of the other threads: a worker takes the next job or returns from one, a handler
throws in a worker, and `stop` is called. -/
inductive OtherStep
  | take
  | finish (index : Nat) (reply : RespValue)
  | throw
  | stop

/-- Steps of other threads before an access to shared state, or the answer to a call. -/
inductive Input
  | others (steps : List OtherStep)
  | clock (now : Int)
  | succeeded
  | failed
  | blocked
  | closed
  | ready (events : List FiredEvent)
  | accepted (fd : Nat)
  | received (bytes : Bytes)
  | sent (count : Nat)
  | reply (value : RespValue)

abbrev ServerProc := Proc ServerState Input

end NovaCache.Server
