import NovaCache.Persistence.Snapshot
import NovaCache.Store.Operations
import Mathlib.Algebra.Order.BigOperators.Group.List
import Mathlib.Algebra.Order.Group.Nat

/-! The persistence engine: logged mutations, snapshots with rotation of the log, and
recovery. The engine mutex serializes all of these, and the thread that calls `fsync`
every second changes no file content, so neither appears. -/
namespace NovaCache.Persistence
variable {config : StoreConfig}

inductive FsyncMode
  | always
  | everysec
  | none
  deriving DecidableEq, Repr

/-- What the system calls behind one logged mutation report. -/
structure Io where
  writes : List WriteResult
  fsync : Bool

structure SnapshotIo where
  sync : Bool
  snapshot : SnapshotStore.Io
  header : List WriteResult
  rotate : Bool

/-- The engine with the two files of its directory; an absent log is an empty one. -/
structure PersistenceEngine where
  fsync : FsyncMode
  snapshot : Option Bytes
  wal : WalWriter

namespace PersistenceEngine

def new (fsync : FsyncMode) (snapshot : Option Bytes) (log : Bytes) : PersistenceEngine :=
  ⟨fsync,snapshot,⟨⟨log,0⟩,false,0⟩⟩

def durabilityAction (engine : PersistenceEngine) (fsync : Bool) : Except Failure Unit :=
  if engine.fsync = .always then engine.wal.sync fsync else .ok ()

def log (engine : PersistenceEngine) (io : Io) (opcode : WalOpcode) (payload : Bytes) :
    Except Failure Unit × PersistenceEngine :=
  match WalWriter.append io.writes engine.wal opcode payload with
  | (.error failure,wal) => (.error failure,{engine with wal := wal})
  | (.ok _,wal) =>
    let engine := {engine with wal := wal}
    (engine.durabilityAction io.fsync,engine)

def durableSet (engine : PersistenceEngine) (io : Io) (store : Store config) (key value : Bytes)
    (reading : Instant) : Except Failure Unit × PersistenceEngine × Store config :=
  match engine.log io .set (encodeSetPayload key value none) with
  | (.error failure,engine) => (.error failure,engine,store)
  | (.ok (),engine) => (.ok (),engine,store.set key (.string value) reading)

def durableDel (engine : PersistenceEngine) (io : Io) (store : Store config) (keys : List Bytes) (now : Int) :
    Except Failure Nat × PersistenceEngine × Store config :=
  match engine.log io .del (encodeDelPayload keys) with
  | (.error failure,engine) => (.error failure,engine,store)
  | (.ok (),engine) =>
    let (removed,store) := store.delMany keys now
    (.ok removed,engine,store)

def expiryMs (ttl wallNow : Int) : Int64 :=
  if ttl > 0 then toUnixMs (wallNow + ttl * 1000000) else toUnixMs wallNow

def durableExpire (engine : PersistenceEngine) (io : Io) (store : Store config) (key : Bytes) (ttl wallNow : Int)
    (first second : Instant) : Except Failure Bool × PersistenceEngine × Store config :=
  match engine.log io .expire (encodeExpirePayload key (expiryMs ttl wallNow)) with
  | (.error failure,engine) => (.error failure,engine,store)
  | (.ok (),engine) =>
    let (found,store) := store.expireAt key (some (fromUnixMs (expiryMs ttl wallNow))) first second
    (.ok found,engine,store)

def snapshotNow (engine : PersistenceEngine) (io : SnapshotIo) (store : Store config) (now : Int) :
    Except Failure Unit × PersistenceEngine × Store config :=
  match (if engine.fsync ≠ .none then engine.wal.sync io.sync else .ok ()) with
  | .error failure => (.error failure,engine,store)
  | .ok () =>
    let (entries,store) := store.exportSnapshotEntries now
    let offset := engine.wal.lastOffset
    match SnapshotStore.write io.snapshot engine.snapshot offset entries with
    | (.error failure,_) => (.error failure,engine,store)
    | (.ok (),snapshot) =>
      let (result,wal) := engine.wal.truncateAfter io.header io.rotate offset
      (result,{engine with snapshot := snapshot, wal := wal},store)

/-- The body of `shutdown` once the `fsync` thread has stopped is that of `snapshot_now`. -/
def shutdown (engine : PersistenceEngine) (io : SnapshotIo) (store : Store config) (now : Int) :
    Except Failure Unit × PersistenceEngine × Store config :=
  engine.snapshotNow io store now

end PersistenceEngine

/-- The body of `apply_record`, and what its reads leave of the view of the payload. -/
def applyRecordView (store : Store config) (record : WalRecord) (first second : Instant) :
    Except Failure (Store config × Bytes) :=
  if record.opcode = .set then do
    let (key,payload) ← readBytes record.payload
    let (value,payload) ← readBytes payload
    let (expires,payload) ← readU8 payload
    if expires ≠ 0 then
      let (millis,payload) ← readI64 payload
      return (store.setExpiring key (.string value) (some (fromUnixMs millis)) first,payload)
    else return (store.setExpiring key (.string value) none first,payload)
  else if record.opcode = .del then do
    let (count,payload) ← readU32 record.payload
    let (keys,payload) ← readItems count.toNat payload
    return ((store.delMany keys first.now).2,payload)
  else if record.opcode = .expire then do
    let (key,payload) ← readBytes record.payload
    let (millis,payload) ← readI64 payload
    return ((store.expireAt key (some (fromUnixMs millis)) first second).2,payload)
  else throw (.runtimeError "unknown WAL opcode during recovery")

/-- The source drops the view unread. -/
def applyRecord (store : Store config) (record : WalRecord) (first second : Instant) : Except Failure (Store config) :=
  (applyRecordView store record first second).map Prod.fst

/-- Two clock readings for each call that recovery makes on the store. -/
abbrev RecoveryClock := Nat → Instant × Instant

def importEntries (clock : RecoveryClock) : Nat → List PersistedEntry → Store config → Store config
  | _, [], store => store
  | index, entry::entries, store =>
    importEntries clock (index + 1) entries (store.importSnapshotEntry entry (clock index).1)

def replayRecords (clock : RecoveryClock) (snapshotOffset : UInt64) :
    Nat → List WalRecord → Store config → Except Failure (Store config)
  | _, [], store => .ok store
  | index, record::records, store =>
    if record.offset ≤ snapshotOffset then replayRecords clock snapshotOffset index records store
    else do
      let store ← applyRecord store record (clock index).1 (clock index).2
      replayRecords clock snapshotOffset (index + 1) records store

def PersistenceEngine.loadSnapshot (engine : PersistenceEngine) : UInt64 × List PersistedEntry :=
  match SnapshotStore.read engine.snapshot with
  | none => (0,[])
  | some (header,entries) => (header.walOffset,entries)

def PersistenceEngine.recoverInto (engine : PersistenceEngine) (store : Store config) (clock : RecoveryClock) :
    Except Failure (PersistenceEngine × Store config) := do
  let cleared := store.clear
  let (snapshotOffset,entries) := engine.loadSnapshot
  let loaded := importEntries clock 0 entries cleared
  let (records,wal) ← WalWriter.openAndRecover engine.wal.file.bytes
  let recovered ← replayRecords clock snapshotOffset entries.length records loaded
  return ({engine with wal := wal},recovered)

inductive Logged
  | set (key value : Bytes)
  | del (keys : List Bytes)
  | expire (key : Bytes) (millis : Int64)
  deriving DecidableEq, Repr

namespace Logged

def opcode : Logged → WalOpcode
  | .set _ _ => .set
  | .del _ => .del
  | .expire _ _ => .expire

def payload : Logged → Bytes
  | .set key value => encodeSetPayload key value none
  | .del keys => encodeDelPayload keys
  | .expire key millis => encodeExpirePayload key millis

/-- The effect on the store, the same for the mutation and for its replay. -/
def apply (logged : Logged) (store : Store config) (first second : Instant) : Store config :=
  match logged with
  | .set key value => store.setExpiring key (.string value) none first
  | .del keys => (store.delMany keys first.now).2
  | .expire key millis => (store.expireAt key (some (fromUnixMs millis)) first second).2

/-- The record, with its length and checksum, is shorter than 2^32 bytes. -/
def Short (logged : Logged) : Prop := logged.payload.length + 18 < 2^32

end Logged

theorem length_foldl_appendBytes (items : List Bytes) (out : Bytes) :
    (items.foldl appendBytes out).length = out.length + (items.map (fun item => item.length + 4)).sum := by
  induction items generalizing out with
  | nil => simp
  | cons item items ih =>
    rw [List.foldl_cons,ih]
    simp only [appendBytes,appendU32,List.length_append,LittleEndian.encode_length,List.map_cons,List.sum_cons]
    omega

theorem sized_of_sum (items : List Bytes) (bound : (items.map (fun item => item.length + 4)).sum < 2^32) :
    Sized items := by
  constructor
  · have each : items.length * 4 ≤ (items.map (fun item => item.length + 4)).sum := by
      clear bound
      induction items with
      | nil => simp
      | cons item items ih =>
        rw [List.map_cons,List.sum_cons,List.length_cons]
        omega
    omega
  · intro item member
    have part := List.le_sum_of_mem (List.mem_map_of_mem (f := fun item : Bytes => item.length + 4) member)
    omega

theorem length_encodeSetPayload (key value : Bytes) :
    (encodeSetPayload key value none).length = key.length + value.length + 9 := by
  simp [encodeSetPayload,appendBytes,appendU32,appendU8]
  omega

/-- What a record can amount to. -/
inductive Applied (store : Store config) (first second : Instant) : Store config → Prop
  | set (key value : Bytes) (expiry : Option Int64) (keyBound : key.length < 2^32) (valueBound : value.length < 2^32) :
      Applied store first second (store.setExpiring key (.string value) (expiry.map fromUnixMs) first)
  | del (keys : List Bytes) : Applied store first second (store.delMany keys first.now).2
  | expire (key : Bytes) (millis : Int64) :
      Applied store first second (store.expireAt key (some (fromUnixMs millis)) first second).2

theorem applyRecordView_applied {store next : Store config} {record : WalRecord} {first second : Instant} {left : Bytes}
    (done : applyRecordView store record first second = .ok (next,left)) : Applied store first second next := by
  unfold applyRecordView at done
  split at done
  · obtain ⟨⟨key,payload⟩,keyRead,done⟩ := bind_success _ _ _ done
    obtain ⟨⟨value,payload⟩,valueRead,done⟩ := bind_success _ _ _ done
    obtain ⟨⟨expires,payload⟩,_,done⟩ := bind_success _ _ _ done
    have applied := fun expiry => @Applied.set _ store first second key value expiry
      (readBytes_length keyRead) (readBytes_length valueRead)
    dsimp only at done
    split at done
    · obtain ⟨⟨millis,payload⟩,_,done⟩ := bind_success _ _ _ done
      cases done
      exact applied (some millis)
    · cases done
      exact applied none
  split at done
  · obtain ⟨⟨count,payload⟩,_,done⟩ := bind_success _ _ _ done
    obtain ⟨⟨keys,payload⟩,_,done⟩ := bind_success _ _ _ done
    cases done
    exact .del keys
  split at done
  · obtain ⟨⟨key,payload⟩,_,done⟩ := bind_success _ _ _ done
    obtain ⟨⟨millis,payload⟩,_,done⟩ := bind_success _ _ _ done
    cases done
    exact .expire key millis
  · cases done

theorem applyRecord_applied {store next : Store config} {record : WalRecord} {first second : Instant}
    (done : applyRecord store record first second = .ok next) : Applied store first second next := by
  unfold applyRecord at done
  cases viewed : applyRecordView store record first second with
  | error =>
    rw [viewed] at done
    cases done
  | ok last =>
    rw [viewed] at done
    cases done
    exact applyRecordView_applied viewed

section Payloads
variable (store : Store config) (offset : UInt64) (first second : Instant)

theorem applyRecordView_set (key value : Bytes) (expiry : Option Int64) (keyBound : key.length < 2^32)
    (valueBound : value.length < 2^32) :
    applyRecordView store ⟨offset,.set,encodeSetPayload key value expiry⟩ first second =
      .ok (store.setExpiring key (.string value) (expiry.map fromUnixMs) first,[]) := by
  cases expiry with
  | none =>
    have payload : encodeSetPayload key value none = appendBytes [] key ++ (appendBytes [] value ++ ([0] ++ [])) := by
      rw [encodeSetPayload,appendBytes_eq (appendBytes [] key)]
      simp [appendU8]
    simp only [applyRecordView,if_true,payload]
    rw [readBytes_appendBytes key _ keyBound,ok_bind]
    dsimp only
    rw [readBytes_appendBytes value _ valueBound,ok_bind]
    rfl
  | some millis =>
    have payload : encodeSetPayload key value (some millis) =
        appendBytes [] key ++ (appendBytes [] value ++
          (1::(LittleEndian.encode 8 millis.toUInt64.toNat ++ []))) := by
      rw [encodeSetPayload,appendBytes_eq (appendBytes [] key)]
      simp [appendU8,appendI64,appendU64]
    simp only [applyRecordView,if_true,payload]
    rw [readBytes_appendBytes key _ keyBound,ok_bind]
    dsimp only
    rw [readBytes_appendBytes value _ valueBound,ok_bind]
    dsimp only
    rw [readU8_append,ok_bind]
    dsimp only
    rw [if_pos (by decide),readI64_append,ok_bind]
    rfl

theorem applyRecordView_del (keys : List Bytes) (sized : Sized keys) :
    applyRecordView store ⟨offset,.del,encodeDelPayload keys⟩ first second =
      .ok ((store.delMany keys first.now).2,[]) := by
  have count : (UInt32.ofNat keys.length).toNat = keys.length := by
    rw [UInt32.toNat_ofNat',Nat.mod_eq_of_lt sized.1]
  have payload : encodeDelPayload keys =
      LittleEndian.encode 4 (UInt32.ofNat keys.length).toNat ++ (keys.foldl appendBytes [] ++ []) := by
    rw [encodeDelPayload,foldl_appendBytes]
    simp [appendU32]
  simp only [applyRecordView,payload]
  rw [if_neg (by decide),if_pos trivial,readU32_append,ok_bind]
  dsimp only
  rw [count,readItems_append keys [] sized.2,ok_bind]
  rfl

theorem applyRecordView_expire (key : Bytes) (millis : Int64) (keyBound : key.length < 2^32) :
    applyRecordView store ⟨offset,.expire,encodeExpirePayload key millis⟩ first second =
      .ok ((store.expireAt key (some (fromUnixMs millis)) first second).2,[]) := by
  have payload : encodeExpirePayload key millis =
      appendBytes [] key ++ (LittleEndian.encode 8 millis.toUInt64.toNat ++ []) := by
    simp [encodeExpirePayload,appendI64,appendU64]
  simp only [applyRecordView,payload]
  rw [if_neg (by decide),if_neg (by decide),if_pos trivial,readBytes_appendBytes key _ keyBound,ok_bind]
  dsimp only
  rw [readI64_append,ok_bind]
  rfl

end Payloads

/-- Replaying the record of a mutation decodes it and has its effect. -/
theorem applyRecord_logged (store : Store config) (offset : UInt64) (logged : Logged) (first second : Instant)
    (short : logged.Short) :
    applyRecord store ⟨offset,logged.opcode,logged.payload⟩ first second = .ok (logged.apply store first second) := by
  rw [applyRecord]
  cases logged with
  | set key value =>
    have length := length_encodeSetPayload key value
    have bound : (encodeSetPayload key value none).length + 18 < 2^32 := short
    change (applyRecordView store ⟨offset,.set,encodeSetPayload key value none⟩ first second).map Prod.fst = _
    rw [applyRecordView_set store offset first second key value none (by omega) (by omega)]
    rfl
  | del keys =>
    have length : (encodeDelPayload keys).length = 4 + (keys.map (fun key => key.length + 4)).sum := by
      rw [encodeDelPayload,length_foldl_appendBytes]
      simp [appendU32]
    have bound : (encodeDelPayload keys).length + 18 < 2^32 := short
    change (applyRecordView store ⟨offset,.del,encodeDelPayload keys⟩ first second).map Prod.fst = _
    rw [applyRecordView_del store offset first second keys (sized_of_sum keys (by omega))]
    rfl
  | expire key millis =>
    have length : (encodeExpirePayload key millis).length = key.length + 12 := by
      simp [encodeExpirePayload,appendI64,appendU64,appendBytes,appendU32]
      omega
    have bound : (encodeExpirePayload key millis).length + 18 < 2^32 := short
    change (applyRecordView store ⟨offset,.expire,encodeExpirePayload key millis⟩ first second).map Prod.fst = _
    rw [applyRecordView_expire store offset first second key millis (by omega)]
    rfl

theorem replayRecords_covered (clock : RecoveryClock) (header : UInt64) (index : Nat) (first second : List WalRecord)
    (store : Store config) (below : ∀ record ∈ first, record.offset ≤ header) :
    replayRecords clock header index (first ++ second) store = replayRecords clock header index second store := by
  induction first with
  | nil => rfl
  | cons record first ih =>
    obtain ⟨here,others⟩ := List.forall_mem_cons.mp below
    rw [List.cons_append,replayRecords,if_pos here]
    exact ih others

inductive Mutation
  | set (key value : Bytes)
  | del (keys : List Bytes)
  | expire (key : Bytes) (ttl : Int)
  deriving DecidableEq, Repr

def Mutation.logged (mutation : Mutation) (wallNow : Int) : Logged :=
  match mutation with
  | .set key value => .set key value
  | .del keys => .del keys
  | .expire key ttl => .expire key (PersistenceEngine.expiryMs ttl wallNow)

def PersistenceEngine.perform (engine : PersistenceEngine) (io : Io) (store : Store config) (mutation : Mutation)
    (wallNow : Int) (first second : Instant) : Except Failure Unit × PersistenceEngine × Store config :=
  match mutation with
  | .set key value => engine.durableSet io store key value first
  | .del keys => (engine.durableDel io store keys first.now).map (Except.map fun _ => ()) id
  | .expire key ttl => (engine.durableExpire io store key ttl wallNow first second).map (Except.map fun _ => ()) id

theorem perform_eq (engine : PersistenceEngine) (io : Io) (store : Store config) (mutation : Mutation)
    (wallNow : Int) (first second : Instant) :
    engine.perform io store mutation wallNow first second =
      match engine.log io (mutation.logged wallNow).opcode (mutation.logged wallNow).payload with
      | (.error failure,engine) => (.error failure,engine,store)
      | (.ok (),engine) => (.ok (),engine,(mutation.logged wallNow).apply store first second) := by
  cases mutation with
  | set key value => rfl
  | del keys =>
    simp only [PersistenceEngine.perform,PersistenceEngine.durableDel,Mutation.logged,Logged.opcode,Logged.payload]
    rcases engine.log io .del (encodeDelPayload keys) with ⟨failure | ⟨⟩,next⟩ <;> rfl
  | expire key ttl =>
    simp only [PersistenceEngine.perform,PersistenceEngine.durableExpire,Mutation.logged,Logged.opcode,Logged.payload]
    rcases engine.log io .expire (encodeExpirePayload key (PersistenceEngine.expiryMs ttl wallNow)) with
      ⟨failure | ⟨⟩,next⟩ <;> rfl

/-- Writes may be short or interrupted, but none fails. -/
def Quiet (results : List WriteResult) : Prop := ∀ result ∈ results, result ≠ .failed ∧ result ≠ .wrote 0

structure Io.Faultless (io : Io) : Prop where
  writes : Quiet io.writes
  fsync : io.fsync = true

theorem writeAll_quiet (message : String) (results : List WriteResult) (quiet : Quiet results) (file : File)
    (bytes : Bytes) : (writeAll message results file bytes).1 = .ok () := by
  induction results generalizing file bytes with
  | nil =>
    unfold writeAll
    split <;> rfl
  | cons result rest ih =>
    obtain ⟨fine,others⟩ := List.forall_mem_cons.mp quiet
    unfold writeAll
    split
    · rfl
    · cases result with
      | interrupted => exact ih others file bytes
      | failed => exact absurd rfl fine.1
      | wrote count =>
        have positive : count ≠ 0 := fun zero => fine.2 (by rw [zero])
        dsimp only
        rw [if_neg positive]
        exact ih others _ _

theorem log_faultless (engine : PersistenceEngine) (io : Io) (faultless : io.Faultless) (opcode : WalOpcode)
    (payload : Bytes) (opened : engine.wal.isOpen = true) :
    ∃ next, engine.log io opcode payload = (.ok (),next) ∧ next.wal.isOpen = true ∧
      next.wal.lastOffset = engine.wal.lastOffset + 1 := by
  have written := writeAll_quiet "short write to WAL" io.writes faultless.writes engine.wal.file
    (encodeRecord ⟨engine.wal.lastOffset + 1,opcode,payload⟩)
  cases result : writeAll "short write to WAL" io.writes engine.wal.file
      (encodeRecord ⟨engine.wal.lastOffset + 1,opcode,payload⟩) with
  | mk returned file =>
    rw [result] at written
    obtain rfl : returned = .ok () := written
    refine ⟨{engine with wal := {engine.wal with file := file, lastOffset := engine.wal.lastOffset + 1}},?_,opened,rfl⟩
    simp [PersistenceEngine.log,WalWriter.append,opened,result,PersistenceEngine.durabilityAction,WalWriter.sync,
      faultless.fsync]

end NovaCache.Persistence
