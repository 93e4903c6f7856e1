import NovaCache.Persistence.Engine
import NovaCache.Protocol.Parser

/-! The command registry: the handlers, the table that the constructor fills, and the
dispatch of a request. A command runs in an environment that answers its clock readings and
the system calls behind the log. An argument position that does not exist is the failure
`outOfRange`. -/
namespace NovaCache.Commands
open Persistence Protocol
variable {config : StoreConfig}

def ascii (text : String) : Bytes := text.toList.map fun character => UInt8.ofNat character.toNat

def wrongArity : Bytes := ascii "ERR wrong number of arguments"
def invalidInteger : Bytes := ascii "ERR value is not an integer or out of range"
def wrongType : Bytes := ascii "WRONGTYPE Operation against a key holding the wrong kind of value"

structure Stats where
  acceptedConnections : UInt64
  activeConnections : UInt64
  totalCommands : UInt64
  commandErrors : UInt64
  bytesIn : UInt64
  bytesOut : UInt64
  expiredKeys : UInt64
  evictedKeys : UInt64
  usedMemory : UInt64

def Stats.renderInfo (stats : Stats) (version : Bytes) (tcpPort : UInt16) (workerCount shardCount : Nat) : Bytes :=
  let line (label : String) (number : Nat) : Bytes := ascii label ++ Decimal.print number ++ crlf
  ascii "# Server" ++ crlf ++
    ascii "novacache_version:" ++ version ++ crlf ++
    line "tcp_port:" tcpPort.toNat ++
    ascii "io_threads:1" ++ crlf ++
    line "worker_threads:" workerCount ++
    line "shard_count:" shardCount ++
    crlf ++
    ascii "# Clients" ++ crlf ++
    line "connected_clients:" stats.activeConnections.toNat ++
    line "total_connections_received:" stats.acceptedConnections.toNat ++
    crlf ++
    ascii "# Stats" ++ crlf ++
    line "total_commands_processed:" stats.totalCommands.toNat ++
    line "total_error_replies:" stats.commandErrors.toNat ++
    line "total_net_input_bytes:" stats.bytesIn.toNat ++
    line "total_net_output_bytes:" stats.bytesOut.toNat ++
    line "expired_keys:" stats.expiredKeys.toNat ++
    line "evicted_keys:" stats.evictedKeys.toNat ++
    crlf ++
    ascii "# Memory" ++ crlf ++
    line "used_memory:" stats.usedMemory.toNat

inductive CommandAccess
  | readOnly
  | write
  deriving DecidableEq, Repr

structure CommandMetadata where
  name : Bytes
  minimumArity : Nat
  maximumArity : Nat
  access : CommandAccess
  persistent : Bool
  replicated : Bool

/-- What the references and pointers of the source lead to. -/
structure CommandContext (config : StoreConfig) where
  store : Store config
  stats : Option Stats
  persistence : Option PersistenceEngine
  version : Bytes
  tcpPort : UInt16
  workerCount : Nat

/-- Clock readings of one command, in the order in which EXPIRE makes them: the steady clock
in the check of the seconds, the wall clock of the expiry, and the two of the store. The
other commands make the first reading of the store only. -/
structure Environment where
  steady : Int
  wallNow : Int
  first : Instant
  second : Instant
  io : Persistence.Io

abbrev Response (config : StoreConfig) := Except Failure RespValue × CommandContext config

abbrev Handler (config : StoreConfig) := List Bytes → Environment → CommandContext config → Response config

def normalize (name : Bytes) : Bytes :=
  name.map fun character => if 0x61 ≤ character ∧ character ≤ 0x7A then character - 0x61 + 0x41 else character

/-- The body is that of `parse_integer` of the parser. -/
def parseInt64 (text : Bytes) : Option Int64 := parseInteger text

def expirationIsRepresentable (seconds : Int64) (steady : Int) : Bool :=
  if seconds ≤ 0 then true
  else seconds.toInt ≤ (2^63 - 1 - steady).tdiv 1000000000

namespace CommandContext

/-- The reply to a call of the persistence engine; what the engine throws passes through. -/
def durably {Value : Type} (context : CommandContext config)
    (outcome : Except Failure Value × PersistenceEngine × Store config) (reply : Value → RespValue) : Response config :=
  (outcome.1.map reply,{context with store := outcome.2.2, persistence := some outcome.2.1})

/-- The reply to a call of the store alone. -/
def directly {Value : Type} (context : CommandContext config) (outcome : Value × Store config)
    (reply : Value → RespValue) : Response config :=
  (.ok (reply outcome.1),{context with store := outcome.2})

end CommandContext

def withArgument (arguments : List Bytes) (index : Nat) (context : CommandContext config)
    (next : Bytes → Response config) : Response config :=
  match arguments[index]? with
  | none => (.error .outOfRange,context)
  | some argument => next argument

def ping : Handler config := fun arguments _ context =>
  if arguments.length = 1 then (.ok (.simple (ascii "PONG")),context)
  else withArgument arguments 1 context fun message => (.ok (.bulk (some message)),context)

def echo : Handler config := fun arguments _ context =>
  withArgument arguments 1 context fun message => (.ok (.bulk (some message)),context)

def set : Handler config := fun arguments environment context =>
  withArgument arguments 1 context fun key => withArgument arguments 2 context fun value =>
    let ok : RespValue := .simple (ascii "OK")
    match context.persistence with
    | some engine =>
      context.durably (engine.durableSet environment.io context.store key value environment.first) fun _ => ok
    | none => context.directly ((),context.store.set key (.string value) environment.first) fun _ => ok

def get : Handler config := fun arguments environment context =>
  withArgument arguments 1 context fun key =>
    context.directly (context.store.get key environment.first.now) fun
      | none => .bulk none
      | some (.string text) => .bulk (some text)
      | some _ => .error wrongType

def count (number : Nat) : RespValue := .integer (Int64.ofNat number)

def del : Handler config := fun arguments environment context =>
  let keys := arguments.drop 1
  match context.persistence with
  | some engine => context.durably (engine.durableDel environment.io context.store keys environment.first.now) count
  | none => context.directly (context.store.delMany keys environment.first.now) count

def exists_ : Handler config := fun arguments environment context =>
  context.directly (context.store.existsMany (arguments.drop 1) environment.first.now) count

def expire : Handler config := fun arguments environment context =>
  withArgument arguments 2 context fun text =>
    let changed (found : Bool) : RespValue := .integer (if found then 1 else 0)
    match parseInt64 text with
    | none => (.ok (.error invalidInteger),context)
    | some seconds =>
      if ¬ expirationIsRepresentable seconds environment.steady then (.ok (.error invalidInteger),context)
      else withArgument arguments 1 context fun key =>
        match context.persistence with
        | some engine => context.durably (engine.durableExpire environment.io context.store key seconds.toInt
            environment.wallNow environment.first environment.second) changed
        | none => context.directly (context.store.expire key seconds.toInt environment.wallNow environment.first
            environment.second) changed

def ttl : Handler config := fun arguments environment context =>
  withArgument arguments 1 context fun key =>
    context.directly (context.store.ttl key environment.first.now) fun seconds => .integer (Int64.ofInt seconds)

def keys : Handler config := fun arguments environment context =>
  withArgument arguments 1 context fun pattern =>
    context.directly (context.store.keys pattern environment.first.now) fun result =>
      if result.status ≠ .ok then .error (ascii "ERR unsupported pattern")
      else .array (some (result.keys.map fun key => .bulk (some key)))

def info : Handler config := fun _ _ context =>
  match context.stats with
  | none => (.ok (.bulk (some [])),context)
  | some stats =>
    (.ok (.bulk (some (stats.renderInfo context.version context.tcpPort context.workerCount config.shardCount))),context)

def extractArgument : RespValue → Option Bytes
  | .bulk (some text) => some text
  | _ => none

def extractArguments : RespValue → Option (List Bytes)
  | .array (some []) => none
  | .array (some items) => items.mapM extractArgument
  | _ => none

structure Entry (config : StoreConfig) where
  metadata : CommandMetadata
  handler : Handler config

def add (name : String) (minimumArity maximumArity : Nat) (access : CommandAccess) (handler : Handler config) :
    Bytes × Entry config :=
  let mutating := access == .write
  (normalize (ascii name),⟨⟨ascii name,minimumArity,maximumArity,access,mutating,mutating⟩,handler⟩)

/-- No name is added twice, so every entry is found under its name. -/
def registry : List (Bytes × Entry config) :=
  [add "PING" 1 2 .readOnly ping,
    add "ECHO" 2 2 .readOnly echo,
    add "SET" 3 3 .write set,
    add "GET" 2 2 .readOnly get,
    add "DEL" 2 sizeMax .write del,
    add "EXISTS" 2 sizeMax .readOnly exists_,
    add "EXPIRE" 3 3 .write expire,
    add "TTL" 2 2 .readOnly ttl,
    add "KEYS" 2 2 .readOnly keys,
    add "INFO" 1 2 .readOnly info]

def execute (request : RespValue) (environment : Environment) (context : CommandContext config) : Response config :=
  match extractArguments request with
  | none => (.ok (.error (ascii "ERR Protocol error")),context)
  | some arguments =>
    withArgument arguments 0 context fun name =>
      match registry.lookup (normalize name) with
      | none => (.ok (.error (ascii "ERR unknown command")),context)
      | some entry =>
        if arguments.length < entry.metadata.minimumArity ∨ arguments.length > entry.metadata.maximumArity then
          (.ok (.error wrongArity),context)
        else entry.handler arguments environment context

def metadata (config : StoreConfig) (name : Bytes) : Option CommandMetadata :=
  ((@registry config).lookup (normalize name)).map Entry.metadata

end NovaCache.Commands
