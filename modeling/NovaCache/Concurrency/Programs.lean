import NovaCache.Linearization
import NovaCache.Persistence.Locking
import Mathlib.Data.UInt

/-! The operations of the store and of the engine as several threads run them: one program
each, with the locks it takes and every access to what they guard. The entry an iterator
points to is the one that was found, and clock readings are arguments, as in the sequential
operations. A `commit` marks the end of a section, at the latest where a guard is left, and does
nothing. -/
namespace NovaCache.Concurrency
open LockOrder (Mode)
open Sections (Code)
open Persistence (PersistenceEngine Io SnapshotIo WalWriter WalOpcode)
open Locking (Lock Unlocking lockMutexesInOrder)
open Store (shardIndex)

variable {config : StoreConfig} {Result : Type}

/-- What a mutex guards. Every operation uses the log under the mutex of the engine, with which it
stands here, and under its own. Only the thread that syncs it is content with its own; what that
thread reads is no part of these programs. -/
def Content (config : StoreConfig) : Lock config → Type
  | .engine => PersistenceEngine
  | .wal => Unit
  | .shard _ => Shard

/-- `approximate_memory_` and `expired_keys_`. -/
abbrev Counters := UInt64 × UInt64

abbrev Program (config : StoreConfig) := Code (Lock config) (Content config) Counters

def acquire (lock : Lock config) (mode : Mode) : Program config Unit := .acquire lock mode (.done ())
def release (lock : Lock config) : Program config Unit := .release lock (.done ())
def commit : Program config Unit := .commit (.done ())
def readShard (index : Fin config.shardCount) : Program config Shard := .read (.shard index) .done
def writeShard (index : Fin config.shardCount) (shard : Shard) : Program config Unit := .write (.shard index) shard (.done ())
def readEngine : Program config PersistenceEngine := .read .engine .done
def writeEngine (engine : PersistenceEngine) : Program config Unit := .write .engine engine (.done ())
def addMemory (bytes : Nat) : Program config Unit := .add (UInt64.ofNat bytes,0) (.done ())
def subMemory (bytes : Nat) : Program config Unit := .add (-UInt64.ofNat bytes,0) (.done ())
def countExpired : Program config Unit := .add (0,1) (.done ())

/-- The scope of a guard. -/
def locked (lock : Lock config) (mode : Mode) (body : Program config Result) : Program config Result := do
  acquire lock mode
  let result ← body
  commit
  release lock
  return result

/-! Inside the guard of a shard. -/

def eraseEntry (index : Fin config.shardCount) (key : Bytes) (entry : Entry) : Program config Unit := do
  subMemory entry.storedBytes
  let shard ← readShard index
  writeShard index (shard.erase key)

def eraseExpiredLocked (index : Fin config.shardCount) (key : Bytes) (entry : Entry) (now : Int) :
    Program config Bool :=
  if ¬ isExpired entry now then return false
  else do
    eraseEntry index key entry
    countExpired
    return true

def findLocked (key : Bytes) (now : Int) : Program config (Option Entry) := do
  let shard ← readShard (shardIndex config key)
  match shard.lookup key with
  | none => return none
  | some entry =>
    if ← eraseExpiredLocked (shardIndex config key) key entry now then return none else return some entry

/-- Through the iterator of a present key, or as a new entry. -/
def assign (key : Bytes) (entry : Entry) (now : Int) (shard : Shard) : Option Entry → Program config Unit
  | none => writeShard (shardIndex config key) (shard.insert key entry)
  | some old => do
    (if isExpired old now then countExpired else return ())
    subMemory old.storedBytes
    writeShard (shardIndex config key) (shard.insert key entry)

def storeEntry (key : Bytes) (entry : Entry) (now : Int) : Program config Unit := do
  let shard ← readShard (shardIndex config key)
  assign key entry now shard (shard.lookup key)
  addMemory entry.storedBytes

def setLocked (key : Bytes) (value : Value) (expiryWall : Option Int) (reading : Instant) : Program config Unit :=
  let bytes := Store.estimateBytes config key value
  match expiryWall with
  | none => storeEntry key ⟨value,none,none,bytes⟩ reading.now
  | some wall =>
    if wall ≤ reading.wallNow then do
      let shard ← readShard (shardIndex config key)
      match shard.lookup key with
      | none => return ()
      | some old => do
        eraseEntry (shardIndex config key) key old
        countExpired
    else storeEntry key ⟨value,some (deadline reading wall),some wall,bytes⟩ reading.now

def delLocked (key : Bytes) (now : Int) : Program config Bool := do
  match ← findLocked key now with
  | none => return false
  | some entry =>
    eraseEntry (shardIndex config key) key entry
    return true

def delManyLocked (now : Int) : List Bytes → Nat → Program config Nat
  | [], removed => return removed
  | key::keys, removed => do
    match ← findLocked key now with
    | none => delManyLocked now keys removed
    | some entry =>
      eraseEntry (shardIndex config key) key entry
      delManyLocked now keys (removed + 1)

def existsManyLocked (now : Int) : List Bytes → Nat → Program config Nat
  | [], count => return count
  | key::keys, count => do
    match ← findLocked key now with
    | none => existsManyLocked now keys count
    | some _ => existsManyLocked now keys (count + 1)

def expireAtLocked (key : Bytes) (expiryWall : Option Int) (first second : Instant) : Program config Bool := do
  match ← findLocked key first.now with
  | none => return false
  | some entry =>
    match expiryWall with
    | none => do
      eraseEntry (shardIndex config key) key entry
      return true
    | some wall =>
      if wall ≤ first.wallNow then do
        eraseEntry (shardIndex config key) key entry
        return true
      else do
        let shard ← readShard (shardIndex config key)
        writeShard (shardIndex config key) (shard.insert key
          {entry with expiresAtWall := some wall, expiresAt := some (deadline second wall)})
        return true

def sweepLocked (index : Fin config.shardCount) (now : Int) :
    List ((_ : Bytes) × Entry) → List (Bytes × Entry) → Program config (List (Bytes × Entry))
  | [], live => return live
  | item::rest, live =>
    if isExpired item.2 now then do
      eraseEntry index item.1 item.2
      countExpired
      sweepLocked index now rest live
    else sweepLocked index now rest (live ++ [(item.1,item.2)])

def sampleLocked (index : Fin config.shardCount) (draws : Nat → Nat) (now : Int) :
    Nat → Nat → Program config (Except Failure Nat)
  | 0, expired => return .ok expired
  | attempts+1, expired => do
    let shard ← readShard index
    match shard.entries[draws attempts % shard.entries.length]? with
    | none => return .error .outOfRange
    | some item => do
      let erased ← eraseExpiredLocked index item.1 item.2 now
      sampleLocked index draws now attempts (if erased then expired + 1 else expired)

/-! The operations of the store. -/

def set (key : Bytes) (value : Value) (expiryWall : Option Int) (reading : Instant) : Program config Unit :=
  locked (.shard (shardIndex config key)) .exclusive (setLocked key value expiryWall reading)

/-- The shared section; nothing is decided in it if the entry found there has expired. -/
def lookupShared (key : Bytes) (now : Int) : Program config (Option (Option Entry)) := do
  let shard ← readShard (shardIndex config key)
  match shard.lookup key with
  | none => return some none
  | some entry => if ¬ isExpired entry now then return some (some entry) else return none

/-- Behind a shared section, which may have decided the result. -/
def orRetry (retry : Program config Result) : Option Result → Program config Result
  | some result => return result
  | none => retry

def lookupLive (key : Bytes) (now : Int) : Program config (Option Entry) := do
  let found ← locked (.shard (shardIndex config key)) .shared (lookupShared key now)
  orRetry (locked (.shard (shardIndex config key)) .exclusive (findLocked key now)) found

def get (key : Bytes) (now : Int) : Program config (Option Value) := do
  return (← lookupLive key now).map Entry.value

def exists_ (key : Bytes) (now : Int) : Program config Bool := do
  return (← lookupLive key now).isSome

def expiryWallTime (key : Bytes) (now : Int) : Program config (Option Int) := do
  return (← lookupLive key now).bind Entry.expiresAtWall

def remaining (expiry now : Int) : Int := (expiry - now).tdiv 1000000000

def ttlShared (key : Bytes) (now : Int) : Program config (Option Int) := do
  let shard ← readShard (shardIndex config key)
  match shard.lookup key with
  | none => return some (-2)
  | some entry =>
    match entry.expiresAt with
    | none => return some (-1)
    | some expiry => if expiry > now then return some (remaining expiry now) else return none

def ttlLocked (key : Bytes) (now : Int) : Program config Int := do
  let shard ← readShard (shardIndex config key)
  match shard.lookup key with
  | none => return -2
  | some entry =>
    match entry.expiresAt with
    | none => return -1
    | some expiry =>
      if ← eraseExpiredLocked (shardIndex config key) key entry now then return -2 else return remaining expiry now

def ttl (key : Bytes) (now : Int) : Program config Int := do
  let found ← locked (.shard (shardIndex config key)) .shared (ttlShared key now)
  orRetry (locked (.shard (shardIndex config key)) .exclusive (ttlLocked key now)) found

def del (key : Bytes) (now : Int) : Program config Bool :=
  locked (.shard (shardIndex config key)) .exclusive (delLocked key now)

def expireAt (key : Bytes) (expiryWall : Option Int) (first second : Instant) : Program config Bool :=
  locked (.shard (shardIndex config key)) .exclusive (expireAtLocked key expiryWall first second)

def expire (key : Bytes) (ttl wallNow : Int) (first second : Instant) : Program config Bool :=
  if ttl ≤ 0 then expireAt key (some wallNow) first second
  else expireAt key (some (wallNow + ttl * 1000000)) first second

def acquireAll : List (Fin config.shardCount) → Program config Unit
  | [] => return ()
  | index::rest => do
    acquire (.shard index) .exclusive
    acquireAll rest

def releaseAll : List (Fin config.shardCount) → Program config Unit
  | [] => return ()
  | index::rest => do
    release (.shard index)
    releaseAll rest

/-- The shards of all keys are locked, each once, and unlocked in any order. -/
def lockedMany (keys : List Bytes) (unlocking : Unlocking keys config) (body : Program config Nat) : Program config Nat :=
  if keys = [] then return 0
  else do
    acquireAll (lockMutexesInOrder (keys.map (shardIndex config)))
    let count ← body
    commit
    releaseAll unlocking.order
    return count

def delMany (keys : List Bytes) (unlocking : Unlocking keys config) (now : Int) : Program config Nat :=
  lockedMany keys unlocking (delManyLocked now keys 0)

def existsMany (keys : List Bytes) (unlocking : Unlocking keys config) (now : Int) : Program config Nat :=
  lockedMany keys unlocking (existsManyLocked now keys 0)

/-- One round of the loops in `keys` and `export_snapshot_entries`. -/
def sweepShard (index : Fin config.shardCount) (now : Int) : Program config (List (Bytes × Entry)) :=
  locked (.shard index) .exclusive do
    let shard ← readShard index
    sweepLocked index now shard.entries []

def sweepFrom (now : Int) : List (Fin config.shardCount) → List (Bytes × Entry) → Program config (List (Bytes × Entry))
  | [], listed => return listed
  | index::rest, listed => do
    let live ← sweepShard index now
    sweepFrom now rest (listed ++ live)

def sweep (now : Int) : Program config (List (Bytes × Entry)) := sweepFrom now (List.finRange config.shardCount) []

def keys (pattern : Bytes) (now : Int) : Program config KeysResult :=
  if pattern ≠ [0x2A] then return ⟨.unsupportedPattern,[]⟩
  else do
    let listed ← sweep now
    return ⟨.ok,(listed.map Prod.fst).mergeSort Store.lexLe⟩

def exportSnapshotEntries (now : Int) : Program config (List PersistedEntry) := do
  let listed ← sweep now
  return listed.map fun item => ⟨item.1,item.2.value,item.2.expiresAtWall⟩

/-- One round of the loop in `active_expire_cycle`. -/
def sampleShard (samplesPerShard : Nat) (index : Fin config.shardCount) (draws : Nat → Nat) (now : Int) (expired : Nat) :
    Program config (Except Failure Nat) :=
  locked (.shard index) .exclusive do
    let shard ← readShard index
    if shard.entries.length = 0 then return .ok expired
    else sampleLocked index draws now (min samplesPerShard shard.entries.length) expired

def sampleFrom (samplesPerShard : Nat) (draws : Nat → Nat → Nat) (now : Int) :
    List (Fin config.shardCount) → Nat → Program config (Except Failure Nat)
  | [], expired => return .ok expired
  | index::rest, expired => do
    match ← sampleShard samplesPerShard index (draws index.val) now expired with
    | .error failure => return .error failure
    | .ok expired => sampleFrom samplesPerShard draws now rest expired

def activeExpireCycle (samplesPerShard : Nat) (draws : Nat → Nat → Nat) (now : Int) :
    Program config (Except Failure Nat) :=
  if samplesPerShard = 0 then return .ok 0
  else sampleFrom samplesPerShard draws now (List.finRange config.shardCount) 0

/-! The operations of the engine, in the scope of its own guard. -/

/-- The scope of the guard of the log, inside that of the engine. -/
def walLocked (body : Program config Result) : Program config Result := do
  acquire .wal .exclusive
  let result ← body
  release .wal
  return result

def append (io : Io) (opcode : WalOpcode) (payload : Bytes) : Program config (Except Failure UInt64) :=
  walLocked do
    let engine ← readEngine
    let (offset,wal) := WalWriter.append io.writes engine.wal opcode payload
    writeEngine {engine with wal := wal}
    return offset

def sync (fsync : Bool) : Program config (Except Failure Unit) :=
  walLocked do return (← readEngine).wal.sync fsync

def lastOffset : Program config UInt64 := walLocked do return (← readEngine).wal.lastOffset

def truncateAfter (io : SnapshotIo) (lastIncludedOffset : UInt64) : Program config (Except Failure Unit) :=
  walLocked do
    let engine ← readEngine
    let (result,wal) := engine.wal.truncateAfter io.header io.rotate lastIncludedOffset
    writeEngine {engine with wal := wal}
    return result

def durabilityAction (fsync : Bool) : Program config (Except Failure Unit) := do
  let engine ← readEngine
  if engine.fsync = .always then sync fsync else return .ok ()

def log (io : Io) (opcode : WalOpcode) (payload : Bytes) : Program config (Except Failure Unit) := do
  match ← append io opcode payload with
  | .error failure => return .error failure
  | .ok _ => durabilityAction io.fsync

/-- The engine stays locked while the record is logged and the mutation is applied. -/
def durably (io : Io) (opcode : WalOpcode) (payload : Bytes) (mutation : Program config Result) :
    Program config (Except Failure Result) :=
  locked .engine .exclusive do
    match ← log io opcode payload with
    | .error failure => return .error failure
    | .ok () => return .ok (← mutation)

def durableSet (io : Io) (key value : Bytes) (reading : Instant) : Program config (Except Failure Unit) :=
  durably io .set (Persistence.encodeSetPayload key value none) (set key (.string value) none reading)

def durableDel (io : Io) (keys : List Bytes) (unlocking : Unlocking keys config) (now : Int) :
    Program config (Except Failure Nat) :=
  durably io .del (Persistence.encodeDelPayload keys) (delMany keys unlocking now)

def durableExpire (io : Io) (key : Bytes) (ttl wallNow : Int) (first second : Instant) :
    Program config (Except Failure Bool) :=
  durably io .expire (Persistence.encodeExpirePayload key (PersistenceEngine.expiryMs ttl wallNow))
    (expireAt key (some (Persistence.fromUnixMs (PersistenceEngine.expiryMs ttl wallNow))) first second)

def syncUnlessNone (fsync : Bool) : Program config (Except Failure Unit) := do
  let engine ← readEngine
  if engine.fsync ≠ .none then sync fsync else return .ok ()

/-- Behind the write of the snapshot. -/
def install (io : SnapshotIo) (offset : UInt64) (engine : PersistenceEngine) :
    Except Failure Unit × Option Bytes → Program config (Except Failure Unit)
  | (.error failure,_) => return .error failure
  | (.ok (),snapshot) => do
    writeEngine {engine with snapshot := snapshot}
    commit
    truncateAfter io offset

/-- The snapshot is written, and the log emptied. -/
def rotate (io : SnapshotIo) (entries : List PersistedEntry) : Program config (Except Failure Unit) := do
  let offset ← lastOffset
  let engine ← readEngine
  install io offset engine (Persistence.SnapshotStore.write io.snapshot engine.snapshot offset entries)

/-- Behind the sync. -/
def saveSnapshot (io : SnapshotIo) (now : Int) : Except Failure Unit → Program config (Except Failure Unit)
  | .error failure => return .error failure
  | .ok () => do
    let entries ← exportSnapshotEntries now
    rotate io entries

def snapshotNow (io : SnapshotIo) (now : Int) : Program config (Except Failure Unit) :=
  locked .engine .exclusive do
    let synced ← syncUnlessNone io.sync
    commit
    saveSnapshot io now synced

/-- Each wait on the condition variable unlocks the engine and locks it again. -/
def waitFor : Nat → Program config Unit
  | 0 => return ()
  | waits+1 => do
    release .engine
    acquire .engine .exclusive
    waitFor waits

/-- The locks of one round of the fsync thread. It syncs behind the mutex of the log only, and what
`sync` answers is dropped. -/
def fsyncRound (waits : Nat) (stopping : Bool) : Program config Unit := do
  acquire .engine .exclusive
  waitFor waits
  release .engine
  if stopping then return ()
  else do
    acquire .wal .exclusive
    release .wal

inductive Operation (config : StoreConfig)
  | set (key : Bytes) (value : Value) (expiryWall : Option Int) (reading : Instant)
  | get (key : Bytes) (now : Int)
  | existsKey (key : Bytes) (now : Int)
  | ttl (key : Bytes) (now : Int)
  | expiryWallTime (key : Bytes) (now : Int)
  | del (key : Bytes) (now : Int)
  | expireAt (key : Bytes) (expiryWall : Option Int) (first second : Instant)
  | expire (key : Bytes) (ttl wallNow : Int) (first second : Instant)
  | delMany (keys : List Bytes) (unlocking : Unlocking keys config) (now : Int)
  | existsMany (keys : List Bytes) (unlocking : Unlocking keys config) (now : Int)
  | durableSet (io : Io) (key value : Bytes) (reading : Instant)
  | durableDel (io : Io) (keys : List Bytes) (unlocking : Unlocking keys config) (now : Int)
  | durableExpire (io : Io) (key : Bytes) (ttl wallNow : Int) (first second : Instant)
  | fsyncRound (waits : Nat) (stopping : Bool)
  | keys (pattern : Bytes) (now : Int)
  | exportSnapshotEntries (now : Int)
  | activeExpireCycle (samplesPerShard : Nat) (draws : Nat → Nat → Nat) (now : Int)
  | snapshotNow (io : SnapshotIo) (now : Int)

inductive Reply
  | done
  | value (found : Option Value)
  | flag (answer : Bool)
  | seconds (left : Int)
  | wall (time : Option Int)
  | count (number : Nat)
  | keys (result : KeysResult)
  | entries (exported : List PersistedEntry)
  | failed (failure : Failure)

/-- An exception takes the place of the result. -/
def Reply.of (reply : Result → Reply) : Except Failure Result → Reply
  | .ok result => reply result
  | .error failure => .failed failure

namespace Operation

def program : Operation config → Program config Reply
  | .set key value expiryWall reading => do
    Concurrency.set key value expiryWall reading
    return .done
  | .get key now => do return .value (← Concurrency.get key now)
  | .existsKey key now => do return .flag (← exists_ key now)
  | .ttl key now => do return .seconds (← Concurrency.ttl key now)
  | .expiryWallTime key now => do return .wall (← Concurrency.expiryWallTime key now)
  | .del key now => do return .flag (← Concurrency.del key now)
  | .expireAt key expiryWall first second => do return .flag (← Concurrency.expireAt key expiryWall first second)
  | .expire key seconds wallNow first second => do return .flag (← Concurrency.expire key seconds wallNow first second)
  | .delMany names unlocking now => do return .count (← Concurrency.delMany names unlocking now)
  | .existsMany names unlocking now => do return .count (← Concurrency.existsMany names unlocking now)
  | .durableSet io key value reading => do return .of (fun _ => .done) (← Concurrency.durableSet io key value reading)
  | .durableDel io names unlocking now => do return .of .count (← Concurrency.durableDel io names unlocking now)
  | .durableExpire io key seconds wallNow first second => do
    return .of .flag (← Concurrency.durableExpire io key seconds wallNow first second)
  | .fsyncRound waits stopping => do
    Concurrency.fsyncRound waits stopping
    return .done
  | .keys pattern now => do return .keys (← Concurrency.keys pattern now)
  | .exportSnapshotEntries now => do return .entries (← Concurrency.exportSnapshotEntries now)
  | .activeExpireCycle samplesPerShard draws now => do
    return .of .count (← Concurrency.activeExpireCycle samplesPerShard draws now)
  | .snapshotNow io now => do return .of (fun _ => .done) (← Concurrency.snapshotNow io now)

end Operation

end NovaCache.Concurrency
