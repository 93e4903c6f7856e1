import NovaCache.Concurrency.Linearizable
import NovaCache.Interruption
import NovaCache.Persistence.Durability

/-! Crashes while several threads are at work. A crash ends all programs where they are and
leaves the log as it is, with a part of the record that is being appended. What the next
start restores is what the operations add up to, in an order that fits all that was seen. -/
namespace NovaCache.Concurrency
open LockOrder (Mode)
open Sections Linearization Interruption
open Persistence (PersistenceEngine Io SnapshotIo WalOpcode WalRecord Logged RecoveryClock FsyncMode replayLogged logOf encodeLog headerWith writerAt
  StartsRecord Overlong)
open Locking (Lock Unlocking lockMutexesInOrder)
open Store (shardIndex)

variable {config : StoreConfig} {Result : Type} {lock : Lock config} {mode : Mode}

/-! Of all sections, only those that log a record write the files, and only once. -/

def shardsOnly (config : StoreConfig) : Lock config → Option Mode
  | .shard _ => some .exclusive
  | .engine | .wal => none

theorem spares_inside {body : Program config Result} (inside : Inside (shardsOnly config) body) : Spares .engine body :=
  .of_inside inside nofun

theorem spares_locked {body : Program config Result} (spares : Spares .engine body) :
    Spares .engine (locked lock mode body) :=
  .bind (show Spares .engine (acquire lock mode) from trivial) fun _ => spares.bind fun _ => trivial

theorem spares_shard {body : Program config Result} (inside : Inside (shardsOnly config) body) :
    Spares .engine (locked lock mode body) := spares_locked (spares_inside inside)

theorem spares_retried {probe : Program config (Option Result)} {retry : Program config Result}
    (probed : Inside (shardsOnly config) probe) (retried : Inside (shardsOnly config) retry) :
    Spares .engine (locked lock .shared probe >>= orRetry (locked lock .exclusive retry)) := by
  refine (spares_shard probed).bind fun found => ?_
  cases found with
  | none => exact spares_shard retried
  | some result => trivial

theorem spares_lookupLive (key : Bytes) (now : Int) : Spares .engine (lookupLive key now : Program config _) :=
  spares_retried (inside_lookupShared (Option.some_ne_none _) now) (inside_findLocked rfl now)

theorem spares_lockedMany {keys : List Bytes} {unlocking : Unlocking keys config} {body : Program config Nat}
    (inside : Inside (shardsOnly config) body) : Spares .engine (lockedMany keys unlocking body) := by
  have acquired : ∀ locks : List (Fin config.shardCount), Spares .engine (acquireAll locks) := by
    intro locks
    induction locks with
    | nil => trivial
    | cons index locks ih => exact ih
  have released : ∀ locks : List (Fin config.shardCount), Spares .engine (releaseAll locks) := by
    intro locks
    induction locks with
    | nil => trivial
    | cons index locks ih => exact ih
  unfold lockedMany
  split
  · trivial
  · refine (acquired _).bind fun _ => (spares_inside inside).bind fun count => ?_
    exact (released unlocking.order).bind fun _ => trivial

theorem spares_set (key : Bytes) (value : Value) (expiryWall : Option Int) (reading : Instant) :
    Spares .engine (set key value expiryWall reading : Program config _) :=
  spares_shard (inside_setLocked rfl value expiryWall reading)

theorem spares_expireAt (key : Bytes) (expiryWall : Option Int) (first second : Instant) :
    Spares .engine (expireAt key expiryWall first second : Program config _) :=
  spares_shard (inside_expireAtLocked rfl expiryWall first second)

theorem spares_delMany (keys : List Bytes) (unlocking : Unlocking keys config) (now : Int) :
    Spares .engine (delMany keys unlocking now) :=
  spares_lockedMany (inside_delManyLocked (fun _ _ => rfl) now 0)

theorem once_append (io : Io) (opcode : WalOpcode) (payload : Bytes) :
    Once .engine false (append io opcode payload : Program config _) := by
  intro engine
  exact Eq.mpr (if_pos rfl) ⟨rfl,trivial⟩

theorem spares_durabilityAction (fsync : Bool) : Spares .engine (durabilityAction fsync : Program config _) := by
  intro engine
  change Spares .engine (if engine.fsync = .always then sync fsync else pure (.ok ()) : Program config _)
  split
  · exact fun _ => trivial
  · trivial

theorem once_durably (io : Io) (opcode : WalOpcode) (payload : Bytes) {mutation : Program config Result}
    (spares : Spares .engine mutation) : Once .engine false (durably io opcode payload mutation) := by
  refine Spares.bind_once (show Spares .engine (acquire Lock.engine .exclusive) from trivial) fun _ => ?_
  refine Once.bind ?_ fun _ => trivial
  unfold log
  rw [Code.bind_assoc]
  refine (once_append io opcode payload).bind fun outcome => ?_
  cases outcome with
  | error failure => trivial
  | ok offset =>
    refine (spares_durabilityAction io.fsync).bind fun outcome => ?_
    cases outcome with
    | error failure => trivial
    | ok => exact spares.bind fun _ => trivial

theorem spares_sweep (now : Int) : Spares .engine (sweep now : Program config _) := by
  unfold sweep
  generalize ([] : List (Bytes × Entry)) = listed
  induction List.finRange config.shardCount generalizing listed with
  | nil => trivial
  | cons index rest ih =>
    have holds : shardsOnly config (.shard index) = some .exclusive := rfl
    exact (spares_shard ((inside_read holds).bind fun _ => inside_sweepLocked holds now _ _)).bind fun live => ih _

theorem spares_activeExpireCycle (samplesPerShard : Nat) (draws : Nat → Nat → Nat) (now : Int) :
    Spares .engine (activeExpireCycle samplesPerShard draws now : Program config _) := by
  unfold activeExpireCycle
  split
  · trivial
  · generalize 0 = expired
    induction List.finRange config.shardCount generalizing expired with
    | nil => trivial
    | cons index rest ih =>
      have holds : shardsOnly config (.shard index) = some .exclusive := rfl
      refine (spares_shard ((inside_read holds).bind fun shard => ?_)).bind fun outcome => ?_
      · split
        · trivial
        · exact inside_sampleLocked holds _ now _ expired
      · split
        · trivial
        · exact ih _

theorem once_rotate (io : SnapshotIo) (entries : List PersistedEntry) :
    Once .engine false (rotate io entries : Program config _) := by
  have installs : ∀ offset engine outcome, Once .engine false (install io offset engine outcome : Program config _) := by
    intro offset engine outcome
    rcases outcome with ⟨failure | ⟨⟩,snapshot⟩
    · trivial
    · exact ⟨rfl,fun _ => ⟨rfl,trivial⟩⟩
  exact fun first engine => installs _ _ _

theorem once_snapshotNow (io : SnapshotIo) (now : Int) : Once .engine false (snapshotNow io now : Program config _) := by
  have synced : Spares .engine (syncUnlessNone io.sync : Program config _) := by
    refine Spares.bind (fun _ => trivial) fun engine => ?_
    split
    · exact fun _ => trivial
    · trivial
  have saves : ∀ outcome, Once .engine false (saveSnapshot io now outcome : Program config _) := by
    intro outcome
    cases outcome with
    | error failure => trivial
    | ok =>
      refine Spares.bind_once (show Spares .engine (exportSnapshotEntries now) from ?_) fun entries => once_rotate io entries
      exact (spares_sweep now).bind fun _ => trivial
  refine Spares.bind_once (show Spares .engine (acquire .engine .exclusive) from trivial) fun _ => ?_
  refine Once.bind (synced.bind_once fun outcome => ?_) fun _ => trivial
  exact saves outcome

/-- No section writes the files twice. -/
theorem program_once (operation : Operation config) : Once .engine false operation.program := by
  have spared : ∀ {Result : Type} {program : Program config Result} (reply : Result → Reply),
      Spares .engine program → Once .engine false (program >>= fun result => pure (reply result)) :=
    fun reply spares => by
      refine Spares.once ?_ false
      exact spares.bind fun _ => trivial
  have logged : ∀ {Result : Type} {program : Program config Result} (reply : Result → Reply),
      Once .engine false program → Once .engine false (program >>= fun result => pure (reply result)) :=
    fun reply once => once.bind fun _ => trivial
  cases operation with
  | get key now => exact spared _ ((spares_lookupLive key now).bind fun _ => trivial)
  | existsKey key now => exact spared _ ((spares_lookupLive key now).bind fun _ => trivial)
  | expiryWallTime key now => exact spared _ ((spares_lookupLive key now).bind fun _ => trivial)
  | ttl key now =>
    exact spared _ (spares_retried (inside_ttlShared (Option.some_ne_none _) now) (inside_ttlLocked rfl now))
  | set key value expiryWall reading => exact spared _ (spares_set key value expiryWall reading)
  | del key now => exact spared _ (spares_shard (inside_delLocked rfl now))
  | expireAt key expiryWall first second => exact spared _ (spares_expireAt key expiryWall first second)
  | expire key seconds wallNow first second =>
    refine spared _ ?_
    unfold Concurrency.expire
    split <;> exact spares_expireAt _ _ _ _
  | delMany keys unlocking now => exact spared _ (spares_delMany keys unlocking now)
  | existsMany keys unlocking now =>
    exact spared _ (spares_lockedMany (inside_existsManyLocked (fun _ _ => rfl) now 0))
  | durableSet io key value reading => exact logged _ (once_durably io _ _ (spares_set key _ none reading))
  | durableDel io keys unlocking now => exact logged _ (once_durably io _ _ (spares_delMany keys unlocking now))
  | durableExpire io key seconds wallNow first second =>
    exact logged _ (once_durably io _ _ (spares_expireAt key _ first second))
  | fsyncRound waits stopping =>
    have waited : Spares .engine (waitFor waits : Program config _) := by
      induction waits with
      | zero => trivial
      | succ waits ih => exact ih
    refine Spares.once ?_ false
    refine Spares.bind (waited.bind fun _ => ?_) fun _ => trivial
    cases stopping <;> trivial
  | keys pattern now =>
    refine spared _ ?_
    unfold Concurrency.keys
    split
    · trivial
    · exact (spares_sweep now).bind fun _ => trivial
  | exportSnapshotEntries now => exact spared _ ((spares_sweep now).bind fun _ => trivial)
  | activeExpireCycle samplesPerShard draws now => exact spared _ (spares_activeExpireCycle samplesPerShard draws now)
  | snapshotNow io now => exact logged _ (once_snapshotNow io now)

/-! What the records stand for. -/

namespace Operation

def io : Operation config → Option Io
  | .durableSet io _ _ _ | .durableDel io _ _ _ | .durableExpire io _ _ _ _ _ => some io
  | _ => none

def logged : Operation config → Option Logged
  | .durableSet _ key value _ => some (.set key value)
  | .durableDel _ names _ _ => some (.del names)
  | .durableExpire _ key seconds wallNow _ _ => some (.expire key (PersistenceEngine.expiryMs seconds wallNow))
  | _ => none

theorem steps_logged {operation : Operation config} {logged : Logged} (mutates : operation.logged = some logged) :
    operation.steps = .atomic operation.effect := by
  cases operation with
  | durableSet | durableDel | durableExpire => rfl
  | _ => cases mutates

/-- No snapshot is taken, no system call fails, and the record is of a length that the log can
hold. -/
structure Sound (operation : Operation config) : Prop where
  plain : ∀ io now, operation ≠ .snapshotNow io now
  faultless : ∀ io ∈ operation.io, io.Faultless
  short : ∀ logged ∈ operation.logged, logged.Short

end Operation

abbrev SoundOperation (config : StoreConfig) := {operation : Operation config // operation.Sound}

/-- The log holds exactly these mutations, and the next record comes behind them. -/
def Logs (pending : List Logged) (engine : PersistenceEngine) : Prop :=
  engine.wal = writerAt 0 (logOf 0 pending) (UInt64.ofNat pending.length)

/-- The engine logs the mutation, and the store is as if there were no engine. -/
theorem apply_logged {operation : Operation config} (faultless : ∀ io ∈ operation.io, io.Faultless) {logged : Logged}
    (mutates : operation.logged = some logged) {records : List WalRecord} {last : UInt64} {engine : PersistenceEngine}
    (ends : engine.wal = writerAt 0 records last) (store : Store config) :
    operation.apply (engine,store) = ((operation.effect store).1,
      {engine with wal := writerAt 0 (records ++ [⟨last + 1,logged.opcode,logged.payload⟩]) (last + 1)},
      (operation.effect store).2) := by
  cases operation with
  | durableSet io key value reading =>
    cases mutates
    have appended : engine.log io .set (Persistence.encodeSetPayload key value none) = _ :=
      Persistence.log_quiet engine io (faultless io rfl) _ _ ends _ _
    simp only [Operation.apply,PersistenceEngine.durableSet,appended]
    rfl
  | durableDel io names unlocking now =>
    cases mutates
    have appended : engine.log io .del (Persistence.encodeDelPayload names) = _ :=
      Persistence.log_quiet engine io (faultless io rfl) _ _ ends _ _
    simp only [Operation.apply,PersistenceEngine.durableDel,appended]
    rfl
  | durableExpire io key seconds wallNow first second =>
    cases mutates
    have appended : engine.log io .expire (Persistence.encodeExpirePayload key
        (PersistenceEngine.expiryMs seconds wallNow)) = _ :=
      Persistence.log_quiet engine io (faultless io rfl) _ _ ends _ _
    simp only [Operation.apply,PersistenceEngine.durableExpire,appended]
    rfl
  | _ => cases mutates

theorem logs_append (pending : List Logged) (engine : PersistenceEngine) (logged : Logged) :
    Logs (pending ++ [logged]) {engine with wal := writerAt 0 (logOf 0 pending ++
      [⟨UInt64.ofNat pending.length + 1,logged.opcode,logged.payload⟩]) (UInt64.ofNat pending.length + 1)} := by
  rw [Logs,Persistence.logOf_append,UInt64.zero_add,List.length_append,UInt64.ofNat_add]
  rfl

section threads
variable {Thread : Type}

/-- The mutations in the order in which they took effect. -/
def mutations {holds : Operation config → Prop} (order : List (Thread × Subtype holds)) : List Logged :=
  order.flatMap fun entry => entry.2.1.logged.toList

theorem mutations_short (order : List (Thread × SoundOperation config)) : ∀ logged ∈ mutations order, logged.Short := by
  intro logged member
  obtain ⟨entry,_,inside⟩ := List.mem_flatMap.mp member
  exact entry.2.2.short logged (Option.mem_toList.mp inside)

theorem mutations_append {holds : Operation config → Prop} (one two : List (Thread × Subtype holds)) :
    mutations (one ++ two) = mutations one ++ mutations two := List.flatMap_append

theorem mutations_single {holds : Operation config → Prop} (thread : Thread) (operation : Subtype holds) :
    mutations [(thread,operation)] = operation.1.logged.toList := List.append_nil _

theorem length_mutations {holds : Operation config → Prop} (order : List (Thread × Subtype holds)) :
    (mutations order).length = (order.filter fun entry => entry.2.1.logged.isSome).length := by
  induction order with
  | nil => rfl
  | cons entry order ih =>
    change (entry.2.1.logged.toList ++ mutations order).length = _
    rw [List.length_append,ih,List.filter_cons]
    cases entry.2.1.logged with
    | none => simp
    | some logged => simp [Nat.add_comm]

/-- An operation on the store with its files, and the same on the store alone. -/
inductive Beside : Option (SoundOperation config × Script (System config) Reply) →
    Option (SoundOperation config × Script (Store config) Reply) → Prop
  | idle : Beside none none
  | quiet {operation : SoundOperation config} (none : operation.1.logged = none) (rest : Script (Store config) Reply) :
      Beside (some (operation,rest.behind)) (some (operation,rest))
  | logs {operation : SoundOperation config} {logged : Logged} (mutates : operation.1.logged = some logged) :
      Beside (some (operation,.atomic operation.1.apply)) (some (operation,.atomic operation.1.effect))
  | done (operation : SoundOperation config) (reply : Reply) :
      Beside (some (operation,.done reply)) (some (operation,.done reply))

theorem beside_call (operation : SoundOperation config) :
    Beside (some (operation,operation.1.script)) (some (operation,operation.1.steps)) := by
  obtain ⟨operation,sound⟩ := operation
  cases operation with
  | snapshotNow io now => exact absurd rfl (sound.plain io now)
  | durableSet | durableDel | durableExpire => exact .logs rfl
  | _ => exact .quiet rfl _

variable [DecidableEq Thread]

/-- Of the store alone nothing is reserved. -/
def unreserved (_ : Store config) : Unit := ()

/-- The object with its files, and the store alone beside it. -/
structure Paired (past : List Logged) (object : Object Thread (SoundOperation config) (System config) Reply)
    (plain : Object Thread (SoundOperation config) (Store config) Reply) : Prop where
  memory : object.memory.2 = plain.memory
  calls : ∀ thread, Beside (object.calls thread) (plain.calls thread)
  order : plain.order = object.order
  logs : Logs (past ++ mutations object.order) object.memory.1

section paired
variable {past : List Logged} {object next : Object Thread (SoundOperation config) (System config) Reply}
variable {plain : Object Thread (SoundOperation config) (Store config) Reply} {thread : Thread}
variable {operation : SoundOperation config}

theorem Paired.update (paired : Paired past object plain) (thread : Thread)
    {call : Option (SoundOperation config × Script (System config) Reply)}
    {rest : Option (SoundOperation config × Script (Store config) Reply)} (own : Beside call rest) (other : Thread) :
    Beside (Function.update object.calls thread call other) (Function.update plain.calls thread rest other) := by
  by_cases mine : other = thread
  · subst mine
    simpa using own
  · simpa [mine] using paired.calls other

theorem Beside.ended {reply : Reply} {rest : Option (SoundOperation config × Script (Store config) Reply)}
    (beside : Beside (some (operation,.done reply)) rest) : rest = some (operation,.done reply) := by
  generalize ahead : Script.done reply = script at beside
  cases beside with
  | quiet none rest =>
    cases rest with
    | act => cases ahead
    | done =>
      cases ahead
      rfl
  | logs => cases ahead
  | done =>
    cases ahead
    rfl

/-- An action that logs nothing is the same on the store alone. -/
theorem Paired.quiet (paired : Paired past object plain) (none : operation.1.logged = none) {Answer : Type}
    (action : Store config → Answer × Store config) (rest : Answer → Script (Store config) Reply) :
    Paired past (object.act thread operation (object.memory.1,(action object.memory.2).2) (rest (action object.memory.2).1).behind)
      (plain.act thread operation (action plain.memory).2 (rest (action plain.memory).1)) where
  memory := by rw [Object.act,Object.act,paired.memory]
  calls := by
    rw [paired.memory]
    exact paired.update thread (.quiet none _)
  order := by rw [Object.act,Object.act,paired.order]
  logs := by
    rw [Object.act,mutations_append,mutations_single,none,Option.toList_none,List.append_nil]
    exact paired.logs

/-- A mutation is logged, and has its effect on the store. -/
theorem Paired.logged (paired : Paired past object plain) {logged : Logged} (mutates : operation.1.logged = some logged) :
    Paired past (object.act thread operation (operation.1.apply object.memory).2 (.done (operation.1.apply object.memory).1))
      (plain.act thread operation (operation.1.effect plain.memory).2 (.done (operation.1.effect plain.memory).1)) := by
  have applied : operation.1.apply object.memory = _ :=
    apply_logged operation.2.faultless mutates paired.logs object.memory.2
  constructor
  · simp only [Object.act,applied,paired.memory]
  · rw [applied,paired.memory]
    exact paired.update thread (.done operation _)
  · simp only [Object.act,paired.order]
  · simp only [Object.act,applied,mutations_append,mutations_single,mutates,Option.toList_some,← List.append_assoc]
    exact logs_append ..

theorem Paired.step (paired : Paired past object plain) {event : Option (Event Thread (SoundOperation config) Reply)}
    (step : Object.Step (fun operation : SoundOperation config => operation.1.script) Prod.fst object event next) :
    ∃ after, Simulation.Run (Object.Step (fun operation : SoundOperation config => operation.1.steps) unreserved) plain
      event.toList after ∧ Paired past next after := by
  cases step with
  | @call thread operation idle =>
    have here := paired.calls thread
    rw [idle] at here
    generalize found : plain.calls thread = call at here
    cases here
    exact ⟨_,.single (.call found),paired.memory,paired.update thread (beside_call operation),paired.order,paired.logs⟩
  | @point thread operation _ reserves action next ahead apart =>
    have here := paired.calls thread
    rw [ahead] at here
    generalize found : plain.calls thread = call at here
    generalize ahead : Script.act reserves action next = rest at here
    cases here with
    | quiet none rest =>
      cases rest with
      | done => cases ahead
      | act reserves action rest =>
        cases ahead
        exact ⟨_,.single (.point found fun _ _ _ _ _ _ => rfl),paired.quiet none action rest⟩
    | logs mutates =>
      cases ahead
      exact ⟨_,.single (.point found fun _ _ _ _ _ _ => rfl),paired.logged mutates⟩
    | done => cases ahead
  | @ret thread operation result ahead =>
    have here := paired.calls thread
    rw [ahead] at here
    exact ⟨_,.single (.ret here.ended),paired.memory,paired.update thread .idle,paired.order,paired.logs⟩

end paired

/-- The engine aside, threads see an object that is the store alone. -/
theorem object_effect {past : List Logged} {engine : PersistenceEngine} {store : Store config}
    {history : List (Event Thread (SoundOperation config) Reply)}
    {object : Object Thread (SoundOperation config) (System config) Reply} (logs : Logs past engine)
    (run : Simulation.Run (Object.Step (fun operation : SoundOperation config => operation.1.script) Prod.fst)
      (.start (engine,store)) history object) :
    ∃ plain, Simulation.Run (Object.Step (fun operation : SoundOperation config => operation.1.steps) unreserved) (.start store) history
      plain ∧ plain.order = object.order ∧ Logs (past ++ mutations object.order) object.memory.1 := by
  have start : Paired past (.start (engine,store) : Object Thread (SoundOperation config) _ _) (.start store) := by
    refine ⟨rfl,fun _ => .idle,rfl,?_⟩
    change Logs (past ++ []) engine
    rwa [List.append_nil]
  obtain ⟨plain,shown,paired⟩ := run.simulated (fun _ _ _ _ step paired => paired.step step) start
  exact ⟨plain,shown,paired.order,paired.logs⟩

/-- What is on the disk when the process is gone. Bytes reach the log only behind its end. -/
inductive Leaves (state : State Thread (SoundOperation config) (Lock config) (Content config) Counters Reply) : Bytes → Prop
  | whole : Leaves state (state.memory.cells .engine : PersistenceEngine).wal.file.bytes
  | torn {thread : Thread} {operation : SoundOperation config} {engine : PersistenceEngine} {next : Program config Reply}
      (ahead : state.calls thread = some (operation,.write .engine engine next)) (count : Nat) :
      Leaves state (engine.wal.file.bytes.take
        ((state.memory.cells .engine : PersistenceEngine).wal.file.bytes.length + count))

/-- A log with these mutations, and behind them what recovery drops. -/
def HoldsLog (log : Bytes) (pending : List Logged) : Prop :=
  log = [] ∧ pending = [] ∨ ∃ tail, log = headerWith 0 ++ (encodeLog (logOf 0 pending) ++ tail) ∧
    ¬ StartsRecord tail ∧ ¬ Overlong tail

theorem Logs.bytes {pending : List Logged} {engine : PersistenceEngine} (logs : Logs pending engine) :
    engine.wal.file.bytes = headerWith 0 ++ encodeLog (logOf 0 pending) := by
  rw [logs]
  rfl

theorem Logs.holds {pending : List Logged} {engine : PersistenceEngine} (logs : Logs pending engine) :
    HoldsLog engine.wal.file.bytes pending :=
  .inr ⟨[],by rw [logs.bytes,List.append_nil],Persistence.empty_not_startsRecord,Persistence.empty_not_overlong⟩

/-- A part of one more record. -/
theorem Logs.torn {pending : List Logged} {engine next : PersistenceEngine} {more : Option Logged} (logs : Logs pending engine)
    (after : Logs (pending ++ more.toList) next) (short : ∀ logged ∈ more, logged.Short) (count : Nat) :
    HoldsLog (next.wal.file.bytes.take (engine.wal.file.bytes.length + count)) pending ∨
      HoldsLog (next.wal.file.bytes.take (engine.wal.file.bytes.length + count)) (pending ++ more.toList) := by
  cases more with
  | none =>
    rw [Option.toList_none,List.append_nil] at after
    rw [after.bytes,logs.bytes,List.take_of_length_le (Nat.le_add_right ..),← logs.bytes]
    exact .inl logs.holds
  | some logged =>
    have grown : next.wal.file.bytes = engine.wal.file.bytes ++
        Persistence.encodeRecord ⟨UInt64.ofNat pending.length + 1,logged.opcode,logged.payload⟩ := by
      rw [after.bytes,logs.bytes,Option.toList_some,Persistence.logOf_append,Persistence.encodeLog_append,UInt64.zero_add]
      simp [encodeLog]
    have bound : Persistence.bodyLength ⟨UInt64.ofNat pending.length + 1,logged.opcode,logged.payload⟩ < 2^32 - 4 := by
      have fits : logged.payload.length + 18 < 2^32 := short logged rfl
      change logged.payload.length + 10 < _
      omega
    rw [grown,List.take_length_add_append]
    by_cases partly : count < (Persistence.encodeRecord
        ⟨UInt64.ofNat pending.length + 1,logged.opcode,logged.payload⟩).length
    · refine .inl (.inr ⟨_,?_,Persistence.torn_not_startsRecord _ count (by omega) partly,
        Persistence.torn_not_overlong _ count bound⟩)
      rw [logs.bytes,List.append_assoc]
    · rw [List.take_of_length_le (Nat.le_of_not_lt partly),← grown]
      exact .inr after.holds

/-- A log that a crash leaves is recovered up to the torn record. -/
theorem HoldsLog.recovered {log : Bytes} {pending : List Logged} (holds : HoldsLog log pending)
    (short : ∀ logged ∈ pending, logged.Short) (room : pending.length < 2^64) (fsync : FsyncMode) (clock : RecoveryClock) :
    ∃ engine, (PersistenceEngine.new fsync none log).recoverInto (Store.empty : Store config) clock =
      .ok (engine,replayLogged clock 0 pending Store.empty) ∧ Logs pending engine := by
  have room : (0 : UInt64).toNat + pending.length < 2^64 := by simpa using room
  have fits : ∀ record ∈ logOf 0 pending, Persistence.bodyLength record < 2^32 - 8 := by
    refine (Persistence.bodyLength_recordsFrom 0 _ _).mpr fun op member => ?_
    obtain ⟨logged,inside,rfl⟩ := List.mem_map.mp member
    have bound : logged.payload.length + 18 < 2^32 := short logged inside
    dsimp only
    omega
  have increasing : Persistence.Increasing 0 (logOf 0 pending) :=
    Persistence.recordsFrom_increasing 0 0 _ (UInt64.le_refl 0) (by rwa [List.length_map])
  have last : Persistence.lastOffsetOf 0 (logOf 0 pending) = UInt64.ofNat pending.length := by
    rw [Persistence.lastOffsetOf_logOf]
    by_cases empty : pending = [] <;> simp [empty]
  have opened : Persistence.WalWriter.openAndRecover log =
      .ok (logOf 0 pending,writerAt 0 (logOf 0 pending) (UInt64.ofNat pending.length)) := by
    rcases holds with ⟨rfl,rfl⟩ | ⟨tail,rfl,absent,fair⟩
    · exact (Persistence.restart_empty 0).trans (by rw [Persistence.freshWriter_eq]; rfl)
    · rw [Persistence.openAndRecover_log 0 _ tail fits increasing absent fair,last]
  have replayed := Persistence.replayRecords_logOf clock 0 0 pending 0 (Store.empty : Store config) (UInt64.le_refl 0) room short
  refine ⟨⟨fsync,none,_⟩,?_,rfl⟩
  rw [PersistenceEngine.recoverInto]
  simp only [PersistenceEngine.new,opened,Persistence.ok_bind]
  exact congrArg (Except.map _) replayed

/-- Starts of the server on one directory: recovery, threads at work, and a crash. -/
inductive Crashes (config : StoreConfig) (Thread : Type) [DecidableEq Thread] :
    Bytes → List (List (Event Thread (SoundOperation config) Reply)) → Bytes → Prop
  | done (log : Bytes) : Crashes config Thread log [] log
  | crash {log left final : Bytes} {history : List (Event Thread (SoundOperation config) Reply)}
      {histories : List (List (Event Thread (SoundOperation config) Reply))} {engine : PersistenceEngine}
      {store : Store config} {state : State Thread (SoundOperation config) (Lock config) (Content config) Counters Reply}
      (fsync : FsyncMode) (clock : RecoveryClock)
      (recovered : (PersistenceEngine.new fsync none log).recoverInto Store.empty clock = .ok (engine,store))
      (run : Simulation.Run (Step fun operation : SoundOperation config => operation.1.program)
        (.start (view (engine,store))) history state)
      (leaves : Leaves state left) (further : Crashes config Thread left histories final) :
      Crashes config Thread log (history::histories) final

/-- The same without files: an object whose mutations take effect at once, and are replayed after
a crash in the order they had. -/
inductive Replays (config : StoreConfig) (Thread : Type) [DecidableEq Thread] :
    List Logged → List (List (Event Thread (SoundOperation config) Reply)) → List Logged → Prop
  | done (past : List Logged) : Replays config Thread past [] past
  | crash {past final : List Logged} {history : List (Event Thread (SoundOperation config) Reply)}
      {histories : List (List (Event Thread (SoundOperation config) Reply))}
      {object : Object Thread (SoundOperation config) (Store config) Reply} (clock : RecoveryClock)
      (run : Simulation.Run (Object.Step (fun operation : SoundOperation config => operation.1.steps) unreserved)
        (.start (replayLogged clock 0 past Store.empty)) history object)
      (further : Replays config Thread (past ++ mutations object.order) histories final) :
      Replays config Thread past (history::histories) final

theorem Replays.subset {past final : List Logged} {histories : List (List (Event Thread (SoundOperation config) Reply))}
    (replays : Replays config Thread past histories final) : past ⊆ final := by
  induction replays with
  | done => exact List.Subset.refl _
  | crash clock run further ih => exact List.Subset.trans (List.subset_append_left ..) ih

/-- Every mutation that was answered is replayed. -/
theorem Replays.answered {past final : List Logged} {histories : List (List (Event Thread (SoundOperation config) Reply))}
    (replays : Replays config Thread past histories final) {history : List (Event Thread (SoundOperation config) Reply)}
    (member : history ∈ histories) {thread : Thread} {operation : SoundOperation config} {reply : Reply}
    (answered : .ret thread operation reply ∈ history) {logged : Logged} (mutates : operation.1.logged = some logged) :
    logged ∈ final := by
  induction replays with
  | done => cases member
  | crash clock run further ih =>
    rcases List.mem_cons.mp member with rfl | later
    · have acts : ∀ other, operation.1.steps ≠ .done other := by
        rw [Operation.steps_logged mutates]
        exact nofun
      refine further.subset (List.mem_append_right _ (List.mem_flatMap.mpr ⟨_,returned_ordered run acts answered,?_⟩))
      exact Option.mem_toList.mpr mutates
    · exact ih later

variable [Fintype Thread]

/-- The log after a crash holds the mutations of an order that fits the history. -/
theorem session_log {past : List Logged} {engine : PersistenceEngine} {store : Store config} {log : Bytes}
    {history : List (Event Thread (SoundOperation config) Reply)}
    {state : State Thread (SoundOperation config) (Lock config) (Content config) Counters Reply} (logs : Logs past engine)
    (run : Simulation.Run (Step fun operation : SoundOperation config => operation.1.program) (.start (view (engine,store)))
      history state) (leaves : Leaves state log) :
    ∃ object, Simulation.Run (Object.Step (fun operation : SoundOperation config => operation.1.steps) unreserved) (.start store)
      history object ∧ HoldsLog log (past ++ mutations object.order) := by
  obtain ⟨object,shown,same,writes⟩ := run_interrupted
    (fun operation : SoundOperation config => program_wellLocked operation.1)
    (fun operation => program_carries operation.1) (fun operation => program_once operation.1) run
  have same : (state.memory.cells .engine : PersistenceEngine) = object.memory.1 := same
  obtain ⟨plain,effects,order,logged⟩ := object_effect logs shown
  cases leaves with
  | whole =>
    rw [same]
    exact ⟨plain,effects,order ▸ logged.holds⟩
  | @torn thread operation next rest ahead count =>
    rw [same]
    obtain ⟨after,further,found⟩ := writes thread operation next rest ahead
    have found : after.memory.1 = next := found
    subst found
    rcases further with rfl | step
    · rw [List.take_of_length_le (Nat.le_add_right ..)]
      exact ⟨plain,effects,order ▸ logged.holds⟩
    · have extended : Simulation.Run (Object.Step (fun operation : SoundOperation config => operation.1.script) Prod.fst)
          (.start (engine,store)) history after := by
        rw [← List.append_nil history]
        exact shown.trans (.single step)
      obtain ⟨later,effects_later,order_later,logged_later⟩ := object_effect logs extended
      obtain ⟨performed,more⟩ : ∃ performed : SoundOperation config,
          mutations after.order = mutations object.order ++ performed.1.logged.toList := by
        cases step with
        | @point _ performed => exact ⟨performed,by simp [mutations,Object.act]⟩
      rw [more,← List.append_assoc] at logged_later
      rcases logged.torn logged_later performed.2.short count with before | behind
      · exact ⟨plain,effects,order ▸ before⟩
      · refine ⟨later,effects_later,?_⟩
        rw [order_later,more,← List.append_assoc]
        exact behind

theorem crashes_replayed {log final : Bytes} {past : List Logged}
    {histories : List (List (Event Thread (SoundOperation config) Reply))}
    (crashes : Crashes config Thread log histories final) (holds : HoldsLog log past)
    (short : ∀ logged ∈ past, logged.Short) (room : past.length + (histories.map List.length).sum < 2^64) :
    ∃ acknowledged, Replays config Thread past histories acknowledged ∧ HoldsLog final acknowledged ∧
      (∀ logged ∈ acknowledged, logged.Short) ∧ acknowledged.length < 2^64 := by
  induction crashes generalizing past with
  | done => exact ⟨past,.done past,holds,short,by simpa using room⟩
  | @crash log left final history histories engine store state fsync clock recovered run leaves further ih =>
    rw [List.map_cons,List.sum_cons] at room
    obtain ⟨found,restored,logs⟩ := holds.recovered short (by omega) fsync clock
    obtain ⟨rfl,rfl⟩ := Prod.mk.inj (Except.ok.inj (recovered.symm.trans restored))
    obtain ⟨object,shown,kept⟩ := session_log logs run leaves
    have logs_once : ∀ operation : SoundOperation config, operation.1.logged.isSome = true →
        ∃ action, operation.1.steps = .atomic action := by
      intro operation logs
      obtain ⟨logged,mutates⟩ := Option.isSome_iff_exists.mp logs
      exact ⟨_,Operation.steps_logged mutates⟩
    have ordered := order_length_le logs_once shown
    rw [← length_mutations] at ordered
    obtain ⟨acknowledged,replays,ended⟩ := ih kept
      (List.forall_mem_append.mpr ⟨short,mutations_short object.order⟩) (by rw [List.length_append]; omega)
    exact ⟨acknowledged,.crash clock shown replays,ended⟩

/-- Threads are at work and the process crashes, again and again. What the threads saw is what
an object without files would have shown them, and the next start restores exactly what its
mutations add up to, with all that were answered. -/
theorem crashes_restored (histories : List (List (Event Thread (SoundOperation config) Reply))) (log : Bytes)
    (crashes : Crashes config Thread [] histories log) (room : (histories.map List.length).sum < 2^64) :
    ∃ acknowledged, Replays config Thread [] histories acknowledged ∧
      (∀ history ∈ histories, ∀ thread operation reply logged, .ret thread operation reply ∈ history →
        operation.1.logged = some logged → logged ∈ acknowledged) ∧
      ∀ fsync clock, ∃ engine, (PersistenceEngine.new fsync none log).recoverInto (Store.empty : Store config) clock =
        .ok (engine,replayLogged clock 0 acknowledged Store.empty) := by
  obtain ⟨acknowledged,replays,holds,short,fits⟩ := crashes_replayed crashes (.inl ⟨rfl,rfl⟩) nofun (by simpa using room)
  refine ⟨acknowledged,replays,fun history member thread operation reply logged answered mutates => ?_,
    fun fsync clock => ?_⟩
  · exact replays.answered member answered mutates
  · obtain ⟨engine,restored,_⟩ := holds.recovered short fits fsync clock
    exact ⟨engine,restored⟩

def durablySetting (value : UInt8) : SoundOperation oneShard :=
  ⟨.durableSet ⟨[],true⟩ [0x6B] [value] ⟨0,0⟩,nofun,
    fun io same => by cases same; exact ⟨nofun,rfl⟩,
    fun logged same => by cases same; simp [Logged.Short,Logged.payload,Persistence.length_encodeSetPayload]⟩

-- The crash comes when the first call has been answered and the second one is under way.
theorem answered_restored : ∃ log acknowledged,
    Crashes oneShard Bool [] [[.call false (durablySetting 0x76),.call true (durablySetting 0x77),
      .ret false (durablySetting 0x76) .done]] log ∧ .set [0x6B] [0x76] ∈ acknowledged ∧
    ∀ fsync clock, ∃ engine, (PersistenceEngine.new fsync none log).recoverInto (Store.empty : Store oneShard) clock =
      .ok (engine,replayLogged clock 0 acknowledged Store.empty) := by
  have run : ∃ state, Simulation.Run (Step fun operation : SoundOperation oneShard => operation.1.program)
      (.start (view (⟨.none,none,writerAt 0 [] 0⟩,Store.empty))) [.call false (durablySetting 0x76),
        .call true (durablySetting 0x77),.ret false (durablySetting 0x76) .done] state := by
    apply Exists.intro
    apply Simulation.Run.go (Step.call rfl)
    apply Simulation.Run.go (Step.call rfl)
    apply run_advances (List.replicate 14 false) rfl
    apply Simulation.Run.go (Step.ret rfl)
    apply Simulation.Run.rest
  obtain ⟨state,run⟩ := run
  have crash : Crashes oneShard Bool [] _ _ := .crash .none (fun _ => (⟨0,0⟩,⟨0,0⟩)) rfl run .whole (.done _)
  obtain ⟨acknowledged,_,answered,restored⟩ := crashes_restored _ _ crash (by decide)
  refine ⟨_,acknowledged,crash,?_,restored⟩
  refine answered _ (List.mem_singleton_self _) false (durablySetting 0x76) .done _ ?_ rfl
  exact List.mem_cons_of_mem _ (List.mem_cons_of_mem _ (List.mem_cons_self ..))

end threads

end NovaCache.Concurrency
