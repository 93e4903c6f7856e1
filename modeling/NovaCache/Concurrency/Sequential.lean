import NovaCache.Concurrency.Programs
import NovaCache.Store.Loops

/-! A program that no other thread interrupts is the sequential operation. -/
namespace NovaCache.Concurrency
open LockOrder (Mode)
open Sections (Code Memory run_bind)
open Linearization (Script)
open Persistence (PersistenceEngine Io SnapshotIo WalWriter WalOpcode)
open Locking (Lock Unlocking)
open Store (shardIndex)

variable {config : StoreConfig} {Result Other : Type}

/-- The engine with its files, and the store. -/
abbrev System (config : StoreConfig) := PersistenceEngine × Store config

def view (system : System config) : Memory (Lock config) (Content config) Counters where
  cells
    | .engine => system.1
    | .wal => ()
    | .shard index => system.2.shards index
  total := (system.2.approximateMemory,system.2.expiredKeys)

section accesses
variable (engine next : PersistenceEngine) (store : Store config)

theorem view_shard (index : Fin config.shardCount) (shard : Shard) :
    (view (engine,store)).store (.shard index) shard =
      view (engine,{store with shards := Function.update store.shards index shard}) := by
  ext1
  · funext lock
    cases lock with
    | engine | wal => rfl
    | shard other =>
      by_cases same : other = index
      · subst same
        refine (Function.update_self ..).trans ?_
        exact (Function.update_self other shard store.shards).symm
      · have different : Lock.shard other ≠ .shard index := fun equal => same (Lock.shard.inj equal)
        exact (Function.update_of_ne different ..).trans (Function.update_of_ne same ..).symm
  · rfl

theorem view_engine : (view (engine,store)).store .engine next = view (next,store) := by
  ext1
  · funext lock
    cases lock with
    | engine | wal | shard => rfl
  · rfl

theorem view_add (bytes expired : UInt64) : (view (engine,store)).add (bytes,expired) =
    view (engine,⟨store.shards,store.approximateMemory + bytes,store.expiredKeys + expired⟩) := rfl

@[simp] theorem run_pure (result : Result) (memory : Memory (Lock config) (Content config) Counters) :
    (pure result : Program config Result).run memory = (result,memory) := rfl

@[simp] theorem run_acquire (lock : Lock config) (mode : Mode) (memory : Memory (Lock config) (Content config) Counters) :
    (acquire lock mode).run memory = ((),memory) := rfl

@[simp] theorem run_release (lock : Lock config) (memory : Memory (Lock config) (Content config) Counters) :
    (release lock).run memory = ((),memory) := rfl

@[simp] theorem run_commit (memory : Memory (Lock config) (Content config) Counters) :
    (commit : Program config Unit).run memory = ((),memory) := rfl

@[simp] theorem run_readShard (index : Fin config.shardCount) :
    (readShard index).run (view (engine,store)) = (store.shards index,view (engine,store)) := rfl

@[simp] theorem run_readEngine :
    (readEngine : Program config PersistenceEngine).run (view (engine,store)) = (engine,view (engine,store)) := rfl

@[simp] theorem run_writeShard (index : Fin config.shardCount) (shard : Shard) :
    (writeShard index shard).run (view (engine,store)) =
      ((),view (engine,{store with shards := Function.update store.shards index shard})) :=
  congrArg ((),·) (view_shard engine store index shard)

@[simp] theorem run_writeEngine :
    (writeEngine next).run (view (engine,store)) = ((),view (next,store)) :=
  congrArg ((),·) (view_engine engine next store)

@[simp] theorem run_addMemory (bytes : Nat) : (addMemory bytes).run (view (engine,store)) =
    ((),view (engine,{store with approximateMemory := store.approximateMemory + UInt64.ofNat bytes})) := by
  change ((),(view (engine,store)).add _) = _
  rw [view_add,add_zero]

@[simp] theorem run_subMemory (bytes : Nat) : (subMemory bytes).run (view (engine,store)) =
    ((),view (engine,{store with approximateMemory := store.approximateMemory - UInt64.ofNat bytes})) := by
  change ((),(view (engine,store)).add _) = _
  rw [view_add,add_zero,← sub_eq_add_neg]

@[simp] theorem run_countExpired :
    (countExpired : Program config Unit).run (view (engine,store)) = ((),view (engine,store.countExpired)) := by
  change ((),(view (engine,store)).add _) = _
  rw [view_add,add_zero]
  rfl

end accesses

@[simp] theorem run_locked (lock : Lock config) (mode : Mode) (body : Program config Result)
    (memory : Memory (Lock config) (Content config) Counters) : (locked lock mode body).run memory = body.run memory := by
  simp [locked,run_bind]

section inside
variable (engine : PersistenceEngine) (store : Store config)

theorem lookup_find (key : Bytes) : (store.shards (shardIndex config key)).lookup key = store.find key := rfl

@[simp] theorem run_eraseEntry (index : Fin config.shardCount) (key : Bytes) (entry : Entry) :
    (eraseEntry index key entry).run (view (engine,store)) = ((),view (engine,store.eraseEntry index key entry)) := by
  simp [eraseEntry,run_bind,Store.eraseEntry]

@[simp] theorem run_eraseExpiredLocked (index : Fin config.shardCount) (key : Bytes) (entry : Entry) (now : Int) :
    (eraseExpiredLocked index key entry now).run (view (engine,store)) =
      ((store.eraseExpiredLocked index key entry now).1,view (engine,(store.eraseExpiredLocked index key entry now).2)) := by
  unfold eraseExpiredLocked Store.eraseExpiredLocked
  split <;> simp [run_bind]

@[simp] theorem run_findLocked (key : Bytes) (now : Int) : (findLocked key now).run (view (engine,store)) =
    ((store.findLocked key now).1,view (engine,(store.findLocked key now).2)) := by
  simp only [findLocked,run_bind,run_readShard]
  rw [lookup_find]
  unfold Store.findLocked
  cases store.find key with
  | none => rfl
  | some entry =>
    simp only [run_bind,run_eraseExpiredLocked]
    cases (store.eraseExpiredLocked (shardIndex config key) key entry now).1 <;> rfl

theorem erase_insert (shard : Shard) (key : Bytes) (entry : Entry) :
    (shard.erase key).insert key entry = shard.insert key entry := by
  ext1
  have absent : key ∉ (List.kerase key shard.entries).keys := List.notMem_keys_kerase key shard.nodupKeys
  rw [AList.entries_insert,AList.entries_insert]
  change _ :: List.kerase key (List.kerase key shard.entries) = _
  rw [List.kerase_of_notMem_keys absent]

@[simp] theorem run_storeEntry (key : Bytes) (entry : Entry) (now : Int) :
    (storeEntry key entry now).run (view (engine,store)) = ((),view (engine,store.storeEntry key entry now)) := by
  simp only [storeEntry,run_bind,run_readShard]
  rw [lookup_find]
  unfold Store.storeEntry
  cases store.find key with
  | none => simp [assign,Store.insertEntry]
  | some old =>
    simp only [assign,run_bind]
    cases isExpired old now <;>
      simp [Store.insertEntry,Store.eraseEntry,Store.countExpired,erase_insert]

@[simp] theorem run_setLocked (key : Bytes) (value : Value) (expiryWall : Option Int) (reading : Instant) :
    (setLocked key value expiryWall reading).run (view (engine,store)) =
      ((),view (engine,store.setExpiring key value expiryWall reading)) := by
  unfold setLocked Store.setExpiring
  cases expiryWall with
  | none => simp
  | some wall =>
    by_cases past : wall ≤ reading.wallNow
    · simp only [past,if_true,run_bind,run_readShard]
      rw [lookup_find]
      cases store.find key <;> simp [run_bind]
    · simp [past]

@[simp] theorem run_delLocked (key : Bytes) (now : Int) : (delLocked key now).run (view (engine,store)) =
    ((store.del key now).1,view (engine,(store.del key now).2)) := by
  simp only [delLocked,Store.del,run_bind,run_findLocked]
  rcases store.findLocked key now with ⟨_ | entry,after⟩ <;> simp [run_bind]

theorem run_delManyLocked (now : Int) (keys : List Bytes) (removed : Nat) :
    (delManyLocked now keys removed).run (view (engine,store)) =
      ((keys.foldl (Store.delManyStep now) (removed,store)).1,
        view (engine,(keys.foldl (Store.delManyStep now) (removed,store)).2)) := by
  induction keys generalizing removed store with
  | nil => rfl
  | cons key keys ih =>
    simp only [delManyLocked,run_bind,run_findLocked,List.foldl_cons,Store.delManyStep]
    rcases store.findLocked key now with ⟨_ | entry,after⟩ <;> simp [run_bind,ih]

theorem run_existsManyLocked (now : Int) (keys : List Bytes) (count : Nat) :
    (existsManyLocked now keys count).run (view (engine,store)) =
      ((keys.foldl (Store.existsManyStep now) (count,store)).1,
        view (engine,(keys.foldl (Store.existsManyStep now) (count,store)).2)) := by
  induction keys generalizing count store with
  | nil => rfl
  | cons key keys ih =>
    simp only [existsManyLocked,run_bind,run_findLocked,List.foldl_cons,Store.existsManyStep]
    rcases store.findLocked key now with ⟨_ | entry,after⟩ <;> simp [ih]

@[simp] theorem run_expireAtLocked (key : Bytes) (expiryWall : Option Int) (first second : Instant) :
    (expireAtLocked key expiryWall first second).run (view (engine,store)) =
      ((store.expireAt key expiryWall first second).1,view (engine,(store.expireAt key expiryWall first second).2)) := by
  simp only [expireAtLocked,Store.expireAt,run_bind,run_findLocked]
  rcases store.findLocked key first.now with ⟨_ | entry,after⟩
  · simp
  · cases expiryWall with
    | none => simp [run_bind]
    | some wall =>
      by_cases past : wall ≤ first.wallNow
      · simp [past,run_bind]
      · simp [past,run_bind,Store.updateEntry,Store.shardFor]

theorem run_sweepLocked (index : Fin config.shardCount) (now : Int) (items : List ((_ : Bytes) × Entry))
    (live : List (Bytes × Entry)) : (sweepLocked index now items live).run (view (engine,store)) =
      ((items.foldl (Store.sweepStep index now) (live,store)).1,
        view (engine,(items.foldl (Store.sweepStep index now) (live,store)).2)) := by
  induction items generalizing live store with
  | nil => rfl
  | cons item items ih =>
    simp only [sweepLocked,List.foldl_cons,Store.sweepStep]
    split <;> simp [run_bind,ih]

theorem run_sampleLocked (index : Fin config.shardCount) (draws : Nat → Nat) (now : Int) (attempts expired : Nat)
    {count : Nat} {next : Store config} (sampled : Store.sampleShard index draws now attempts expired store = .ok (count,next)) :
    (sampleLocked index draws now attempts expired).run (view (engine,store)) = (.ok count,view (engine,next)) := by
  induction attempts generalizing expired store with
  | zero =>
    cases sampled
    rfl
  | succ attempts ih =>
    simp only [sampleLocked,run_bind,run_readShard]
    unfold Store.sampleShard at sampled
    dsimp only at sampled
    cases drawn : (store.shards index).entries[draws attempts % (store.shards index).entries.length]? with
    | none =>
      rw [drawn] at sampled
      cases sampled
    | some item =>
      rw [drawn] at sampled
      simp only [run_bind,run_eraseExpiredLocked]
      exact ih _ _ sampled

end inside

/-! The operations. -/

section operations
variable (engine : PersistenceEngine) (store : Store config)

@[simp] theorem run_set (key : Bytes) (value : Value) (expiryWall : Option Int) (reading : Instant) :
    (set key value expiryWall reading).run (view (engine,store)) =
      ((),view (engine,store.setExpiring key value expiryWall reading)) := by
  simp [set]

/-- The entry that a shared section finds has expired, so that it decides nothing. -/
def Due (store : Store config) (key : Bytes) (now : Int) : Bool := (store.find key).any (isExpired · now)

theorem lookupLive_kept (key : Bytes) (now : Int) (live : Due store key now = false) :
    (store.lookupLive key now).2 = store := by
  unfold Due at live
  unfold Store.lookupLive
  cases found : store.find key with
  | none => rfl
  | some entry =>
    have fresh : isExpired entry now = false := by simpa [found] using live
    simp [fresh]

theorem findLocked_eq (key : Bytes) (now : Int) : store.findLocked key now = store.lookupLive key now := by
  unfold Store.findLocked Store.lookupLive
  cases found : store.find key with
  | none => rfl
  | some entry => cases due : isExpired entry now <;> simp [Store.eraseExpiredLocked,due]

theorem run_lookupShared (key : Bytes) (now : Int) : (lookupShared key now).run (view (engine,store)) =
    (if Due store key now then none else some (store.lookupLive key now).1,view (engine,store)) := by
  simp only [lookupShared,run_bind,run_readShard]
  rw [lookup_find]
  unfold Due Store.lookupLive
  cases store.find key with
  | none => rfl
  | some entry => cases due : isExpired entry now <;> simp [due]

@[simp] theorem run_lookupLive (key : Bytes) (now : Int) : (lookupLive key now).run (view (engine,store)) =
    ((store.lookupLive key now).1,view (engine,(store.lookupLive key now).2)) := by
  simp only [lookupLive,run_bind,run_locked,run_lookupShared]
  cases due : Due store key now with
  | true => simp [orRetry,findLocked_eq]
  | false => simp [orRetry,lookupLive_kept store key now due]

@[simp] theorem run_get (key : Bytes) (now : Int) : (get key now).run (view (engine,store)) =
    ((store.get key now).1,view (engine,(store.get key now).2)) := by
  simp [get,Store.get,run_bind]

@[simp] theorem run_exists (key : Bytes) (now : Int) : (exists_ key now).run (view (engine,store)) =
    ((store.exists_ key now).1,view (engine,(store.exists_ key now).2)) := by
  simp [exists_,Store.exists_,run_bind]

@[simp] theorem run_expiryWallTime (key : Bytes) (now : Int) : (expiryWallTime key now).run (view (engine,store)) =
    ((store.expiryWallTime key now).1,view (engine,(store.expiryWallTime key now).2)) := by
  simp [expiryWallTime,Store.expiryWallTime,run_bind]

theorem run_ttlLocked (key : Bytes) (now : Int) : (ttlLocked key now).run (view (engine,store)) =
    ((store.ttl key now).1,view (engine,(store.ttl key now).2)) := by
  simp only [ttlLocked,run_bind,run_readShard]
  rw [lookup_find]
  unfold Store.ttl
  cases found : store.find key with
  | none => simp
  | some entry =>
    cases expires : entry.expiresAt with
    | none => simp [expires]
    | some expiry =>
      by_cases later : expiry > now
      · have live : isExpired entry now = false := by simp [isExpired,expires,later]
        simp [expires,later,run_bind,Store.eraseExpiredLocked,live,remaining]
      · have due : isExpired entry now = true := by simp [isExpired,expires,Int.not_lt.mp later]
        simp [expires,later,run_bind,Store.eraseExpiredLocked,due]

theorem ttl_kept (key : Bytes) (now : Int) (live : Due store key now = false) : (store.ttl key now).2 = store := by
  unfold Due at live
  unfold Store.ttl
  cases found : store.find key with
  | none => rfl
  | some entry =>
    cases expires : entry.expiresAt with
    | none => simp [expires]
    | some expiry =>
      have later : expiry > now := by simpa [found,isExpired,expires] using live
      simp [expires,later]

theorem run_ttlShared (key : Bytes) (now : Int) : (ttlShared key now).run (view (engine,store)) =
    (if Due store key now then none else some (store.ttl key now).1,view (engine,store)) := by
  simp only [ttlShared,run_bind,run_readShard]
  rw [lookup_find]
  unfold Due Store.ttl
  cases store.find key with
  | none => simp
  | some entry =>
    cases expires : entry.expiresAt with
    | none => simp [expires,isExpired]
    | some expiry =>
      by_cases later : expiry > now
      · simp [expires,later,isExpired,remaining]
      · simp [expires,later,isExpired,Int.not_lt.mp later]

@[simp] theorem run_ttl (key : Bytes) (now : Int) : (ttl key now).run (view (engine,store)) =
    ((store.ttl key now).1,view (engine,(store.ttl key now).2)) := by
  simp only [ttl,run_bind,run_locked,run_ttlShared]
  cases due : Due store key now with
  | true => simp [orRetry,run_ttlLocked]
  | false => simp [orRetry,ttl_kept store key now due]

@[simp] theorem run_del (key : Bytes) (now : Int) : (del key now).run (view (engine,store)) =
    ((store.del key now).1,view (engine,(store.del key now).2)) := by
  simp [del]

@[simp] theorem run_expireAt (key : Bytes) (expiryWall : Option Int) (first second : Instant) :
    (expireAt key expiryWall first second).run (view (engine,store)) =
      ((store.expireAt key expiryWall first second).1,view (engine,(store.expireAt key expiryWall first second).2)) := by
  simp [expireAt]

@[simp] theorem run_expire (key : Bytes) (seconds wallNow : Int) (first second : Instant) :
    (expire key seconds wallNow first second).run (view (engine,store)) =
      ((store.expire key seconds wallNow first second).1,
        view (engine,(store.expire key seconds wallNow first second).2)) := by
  unfold expire Store.expire
  split <;> simp

@[simp] theorem run_acquireAll (locks : List (Fin config.shardCount))
    (memory : Memory (Lock config) (Content config) Counters) : (acquireAll locks).run memory = ((),memory) := by
  induction locks with
  | nil => rfl
  | cons index locks ih => simp [acquireAll,run_bind,ih]

@[simp] theorem run_releaseAll (locks : List (Fin config.shardCount))
    (memory : Memory (Lock config) (Content config) Counters) : (releaseAll locks).run memory = ((),memory) := by
  induction locks with
  | nil => rfl
  | cons index locks ih => simp [releaseAll,run_bind,ih]

@[simp] theorem run_delMany (keys : List Bytes) (unlocking : Unlocking keys config) (now : Int) :
    (delMany keys unlocking now).run (view (engine,store)) =
      ((store.delMany keys now).1,view (engine,(store.delMany keys now).2)) := by
  unfold delMany lockedMany
  split
  · next none =>
    subst none
    rfl
  · simp [run_bind,run_delManyLocked,Store.delMany]

@[simp] theorem run_existsMany (keys : List Bytes) (unlocking : Unlocking keys config) (now : Int) :
    (existsMany keys unlocking now).run (view (engine,store)) =
      ((store.existsMany keys now).1,view (engine,(store.existsMany keys now).2)) := by
  unfold existsMany lockedMany
  split
  · next none =>
    subst none
    rfl
  · simp [run_bind,run_existsManyLocked,Store.existsMany]

@[simp] theorem run_sweepShard (index : Fin config.shardCount) (now : Int) :
    (sweepShard index now).run (view (engine,store)) =
      ((store.sweepShard index now).1,view (engine,(store.sweepShard index now).2)) := by
  simp [sweepShard,run_bind,run_sweepLocked,Store.sweepShard]

@[simp] theorem run_sweep (now : Int) : (sweep now).run (view (engine,store)) =
    ((store.sweep now).1,view (engine,(store.sweep now).2)) := by
  unfold sweep Store.sweep
  generalize ([] : List (Bytes × Entry)) = listed
  induction List.finRange config.shardCount generalizing listed store with
  | nil => rfl
  | cons index rest ih => simp [sweepFrom,run_bind,ih]

@[simp] theorem run_keys (pattern : Bytes) (now : Int) : (keys pattern now).run (view (engine,store)) =
    ((store.keys pattern now).1,view (engine,(store.keys pattern now).2)) := by
  unfold keys Store.keys
  split <;> simp [run_bind]

@[simp] theorem run_exportSnapshotEntries (now : Int) : (exportSnapshotEntries now).run (view (engine,store)) =
    ((store.exportSnapshotEntries now).1,view (engine,(store.exportSnapshotEntries now).2)) := by
  simp [exportSnapshotEntries,Store.exportSnapshotEntries,run_bind]

theorem run_sampleShard (samplesPerShard : Nat) (index : Fin config.shardCount) (draws : Nat → Nat) (now : Int)
    (expired : Nat) : ∃ count next, Store.sampleRound samplesPerShard index draws now (expired,store) = .ok (count,next) ∧
      (sampleShard samplesPerShard index draws now expired).run (view (engine,store)) = (.ok count,view (engine,next)) := by
  rw [sampleShard,run_locked]
  by_cases none : (store.shards index).entries.length = 0
  · refine ⟨expired,store,if_pos none,?_⟩
    rw [run_bind]
    exact congrArg (Code.run · (view (engine,store))) (if_pos none)
  · obtain ⟨count,next,sampled,_⟩ := Store.sampleShard_ends (Store.removal_dropped now) index draws
      (min samplesPerShard (store.shards index).entries.length) expired store (Nat.min_le_right ..)
    refine ⟨_,next,(if_neg none).trans sampled,?_⟩
    rw [run_bind]
    refine (congrArg (Code.run · (view (engine,store))) (if_neg none)).trans ?_
    exact run_sampleLocked engine store index draws now _ expired sampled

theorem run_sampleFrom (samplesPerShard : Nat) (draws : Nat → Nat → Nat) (now : Int)
    (indices : List (Fin config.shardCount)) (expired : Nat) : ∃ count next,
      indices.foldlM (fun sample index => Store.sampleRound samplesPerShard index (draws index.val) now sample) (expired,store) =
        .ok (count,next) ∧
      (sampleFrom samplesPerShard draws now indices expired).run (view (engine,store)) = (.ok count,view (engine,next)) := by
  induction indices generalizing expired store with
  | nil => exact ⟨expired,store,rfl,rfl⟩
  | cons index rest ih =>
    obtain ⟨count,next,round,ran⟩ := run_sampleShard engine store samplesPerShard index (draws index.val) now expired
    obtain ⟨total,last,sampled,further⟩ := ih next count
    refine ⟨total,last,?_,?_⟩
    · rw [List.foldlM_cons,round]
      exact sampled
    · simp only [sampleFrom,run_bind,ran]
      exact further

theorem run_activeExpireCycle (samplesPerShard : Nat) (draws : Nat → Nat → Nat) (now : Int) :
    ∃ count next, store.activeExpireCycle samplesPerShard draws now = .ok (count,next) ∧
      (activeExpireCycle samplesPerShard draws now).run (view (engine,store)) = (.ok count,view (engine,next)) := by
  unfold Store.activeExpireCycle activeExpireCycle
  split
  · exact ⟨0,store,rfl,rfl⟩
  · exact run_sampleFrom engine store samplesPerShard draws now (List.finRange config.shardCount) 0

end operations

/-! The engine. -/

section engine
variable (engine : PersistenceEngine) (store : Store config)

@[simp] theorem run_walLocked (body : Program config Result) (memory : Memory (Lock config) (Content config) Counters) :
    (walLocked body).run memory = body.run memory := by
  simp [walLocked,run_bind]

@[simp] theorem run_append (io : Io) (opcode : WalOpcode) (payload : Bytes) :
    (append io opcode payload).run (view (engine,store)) = ((WalWriter.append io.writes engine.wal opcode payload).1,
      view ({engine with wal := (WalWriter.append io.writes engine.wal opcode payload).2},store)) := by
  simp [append,run_bind]

@[simp] theorem run_sync (fsync : Bool) :
    (sync fsync).run (view (engine,store)) = (engine.wal.sync fsync,view (engine,store)) := by
  simp [sync,run_bind]

@[simp] theorem run_durabilityAction (fsync : Bool) :
    (durabilityAction fsync).run (view (engine,store)) = (engine.durabilityAction fsync,view (engine,store)) := by
  change Code.run (if engine.fsync = .always then sync fsync else pure (.ok ())) (view (engine,store)) = _
  unfold PersistenceEngine.durabilityAction
  split <;> simp

@[simp] theorem run_log (io : Io) (opcode : WalOpcode) (payload : Bytes) :
    (log io opcode payload).run (view (engine,store)) =
      ((engine.log io opcode payload).1,view ((engine.log io opcode payload).2,store)) := by
  simp only [log,run_bind,run_append,PersistenceEngine.log]
  rcases WalWriter.append io.writes engine.wal opcode payload with ⟨failure | offset,wal⟩ <;> simp

theorem run_durably (io : Io) (opcode : WalOpcode) (payload : Bytes) (mutation : Program config Result) :
    (durably io opcode payload mutation).run (view (engine,store)) =
      match engine.log io opcode payload with
      | (.error failure,engine) => (.error failure,view (engine,store))
      | (.ok (),engine) => (.ok (mutation.run (view (engine,store))).1,(mutation.run (view (engine,store))).2) := by
  simp only [durably,run_locked,run_bind,run_log]
  rcases engine.log io opcode payload with ⟨failure | ⟨⟩,next⟩ <;> simp [run_bind]

@[simp] theorem run_durableSet (io : Io) (key value : Bytes) (reading : Instant) :
    (durableSet io key value reading).run (view (engine,store)) =
      ((engine.durableSet io store key value reading).1,view (engine.durableSet io store key value reading).2) := by
  rw [durableSet,run_durably,PersistenceEngine.durableSet]
  rcases engine.log io .set (Persistence.encodeSetPayload key value none) with ⟨failure | ⟨⟩,next⟩ <;> simp [Store.set]

@[simp] theorem run_durableDel (io : Io) (keys : List Bytes) (unlocking : Unlocking keys config) (now : Int) :
    (durableDel io keys unlocking now).run (view (engine,store)) =
      ((engine.durableDel io store keys now).1,view (engine.durableDel io store keys now).2) := by
  rw [durableDel,run_durably,PersistenceEngine.durableDel]
  rcases engine.log io .del (Persistence.encodeDelPayload keys) with ⟨failure | ⟨⟩,next⟩ <;> simp

@[simp] theorem run_durableExpire (io : Io) (key : Bytes) (seconds wallNow : Int) (first second : Instant) :
    (durableExpire io key seconds wallNow first second).run (view (engine,store)) =
      ((engine.durableExpire io store key seconds wallNow first second).1,
        view (engine.durableExpire io store key seconds wallNow first second).2) := by
  rw [durableExpire,run_durably,PersistenceEngine.durableExpire]
  rcases engine.log io .expire (Persistence.encodeExpirePayload key (PersistenceEngine.expiryMs seconds wallNow)) with
    ⟨failure | ⟨⟩,next⟩ <;> simp

@[simp] theorem run_syncUnlessNone (fsync : Bool) : (syncUnlessNone fsync).run (view (engine,store)) =
    (if engine.fsync ≠ .none then engine.wal.sync fsync else .ok (),view (engine,store)) := by
  change Code.run (if engine.fsync ≠ .none then sync fsync else pure (.ok ())) (view (engine,store)) = _
  split <;> simp

@[simp] theorem run_snapshotNow (io : SnapshotIo) (now : Int) : (snapshotNow io now).run (view (engine,store)) =
    ((engine.snapshotNow io store now).1,view (engine.snapshotNow io store now).2) := by
  simp only [snapshotNow,run_locked,run_bind,run_syncUnlessNone,PersistenceEngine.snapshotNow]
  rcases (if engine.fsync ≠ .none then engine.wal.sync io.sync else .ok () : Except Failure Unit) with failure | ⟨⟩
  · simp [saveSnapshot]
  · simp only [saveSnapshot,run_commit,run_bind,run_exportSnapshotEntries,rotate,lastOffset,run_walLocked,run_readEngine,run_pure]
    rcases Persistence.SnapshotStore.write io.snapshot engine.snapshot engine.wal.lastOffset
      (store.exportSnapshotEntries now).1 with ⟨failure | ⟨⟩,written⟩ <;>
        simp [install,run_bind,truncateAfter]

@[simp] theorem run_fsyncRound (waits : Nat) (stopping : Bool) (memory : Memory (Lock config) (Content config) Counters) :
    (fsyncRound waits stopping).run memory = ((),memory) := by
  have waited : (waitFor waits : Program config Unit).run memory = ((),memory) := by
    induction waits with
    | zero => rfl
    | succ waits ih => simp [waitFor,run_bind,ih]
  cases stopping <;> simp [fsyncRound,run_bind,waited]

end engine

/-- What is left of the store if there is an exception. -/
def sampled (store : Store config) : Except Failure (Nat × Store config) → Except Failure Nat × Store config
  | .ok (expired,next) => (.ok expired,next)
  | .error failure => (.error failure,store)

namespace Operation

/-- What the operation does to the store when everything it logs or saves is written. -/
def effect (operation : Operation config) (store : Store config) : Reply × Store config :=
  match operation with
  | .set key value expiryWall reading => (.done,store.setExpiring key value expiryWall reading)
  | .get key now => (store.get key now).map .value id
  | .existsKey key now => (store.exists_ key now).map .flag id
  | .ttl key now => (store.ttl key now).map .seconds id
  | .expiryWallTime key now => (store.expiryWallTime key now).map .wall id
  | .del key now => (store.del key now).map .flag id
  | .expireAt key expiryWall first second => (store.expireAt key expiryWall first second).map .flag id
  | .expire key seconds wallNow first second => (store.expire key seconds wallNow first second).map .flag id
  | .delMany names _ now => (store.delMany names now).map .count id
  | .existsMany names _ now => (store.existsMany names now).map .count id
  | .durableSet _ key value reading => (.done,store.set key (.string value) reading)
  | .durableDel _ names _ now => (store.delMany names now).map .count id
  | .durableExpire _ key seconds wallNow first second =>
    (store.expireAt key (some (Persistence.fromUnixMs (PersistenceEngine.expiryMs seconds wallNow))) first second).map .flag id
  | .fsyncRound _ _ => (.done,store)
  | .keys pattern now => (store.keys pattern now).map .keys id
  | .exportSnapshotEntries now => (store.exportSnapshotEntries now).map .entries id
  | .activeExpireCycle samplesPerShard draws now =>
    (sampled store (store.activeExpireCycle samplesPerShard draws now)).map (.of .count) id
  | .snapshotNow _ now => (.done,(store.exportSnapshotEntries now).2)

/-- The sequential operation. -/
def apply (operation : Operation config) (system : System config) : Reply × System config :=
  match operation with
  | .durableSet io key value reading => (system.1.durableSet io system.2 key value reading).map (.of fun _ => .done) id
  | .durableDel io names _ now => (system.1.durableDel io system.2 names now).map (.of .count) id
  | .durableExpire io key seconds wallNow first second =>
    (system.1.durableExpire io system.2 key seconds wallNow first second).map (.of .flag) id
  | .snapshotNow io now => (system.1.snapshotNow io system.2 now).map (.of fun _ => .done) id
  | other => ((other.effect system.2).1,system.1,(other.effect system.2).2)

end Operation

theorem run_program (operation : Operation config) (system : System config) :
    operation.program.run (view system) = ((operation.apply system).1,view (operation.apply system).2) := by
  obtain ⟨engine,store⟩ := system
  cases operation with
  | activeExpireCycle samplesPerShard draws now =>
    obtain ⟨count,next,cycle,ran⟩ := run_activeExpireCycle engine store samplesPerShard draws now
    simp [Operation.program,Operation.apply,Operation.effect,run_bind,ran,cycle,sampled,Reply.of]
  | _ => simp [Operation.program,Operation.apply,Operation.effect,run_bind]

/-! What other threads see of an operation: actions, of which each takes effect at once. Most
operations have one; those that go over all shards have one for each. -/

def sweepScript (reserves : Bool) (now : Int) :
    List (Fin config.shardCount) → List (Bytes × Entry) → Script (Store config) (List (Bytes × Entry))
  | [], listed => .done listed
  | index::rest, listed =>
    .act reserves (fun store => store.sweepShard index now) fun live => sweepScript reserves now rest (listed ++ live)

def sampleScript (samplesPerShard : Nat) (draws : Nat → Nat → Nat) (now : Int) :
    List (Fin config.shardCount) → Nat → Script (Store config) (Except Failure Nat)
  | [], expired => .done (.ok expired)
  | index::rest, expired =>
    .act false (fun store => sampled store (Store.sampleRound samplesPerShard index (draws index.val) now (expired,store))) fun
      | .error failure => .done (.error failure)
      | .ok expired => sampleScript samplesPerShard draws now rest expired

/-- The snapshot is in its place, and says up to which record it goes. -/
def installed (io : SnapshotIo) (entries : List PersistedEntry) (engine : PersistenceEngine) :
    Except Failure UInt64 × PersistenceEngine :=
  match Persistence.SnapshotStore.write io.snapshot engine.snapshot engine.wal.lastOffset entries with
  | (.error failure,_) => (.error failure,engine)
  | (.ok (),snapshot) => (.ok engine.wal.lastOffset,{engine with snapshot := snapshot})

/-- The log is empty. -/
def emptied (io : SnapshotIo) (offset : UInt64) (engine : PersistenceEngine) : Except Failure Unit × PersistenceEngine :=
  let (result,wal) := engine.wal.truncateAfter io.header io.rotate offset
  (result,{engine with wal := wal})

def truncateScript (io : SnapshotIo) : Except Failure UInt64 → Script (System config) (Except Failure Unit)
  | .error failure => .done (.error failure)
  | .ok offset => .act true (fun system => (emptied io offset system.1).map id (·,system.2)) .done

def installScript (io : SnapshotIo) (entries : List PersistedEntry) : Script (System config) (Except Failure Unit) :=
  .act true (fun system => (installed io entries system.1).map id (·,system.2)) (truncateScript io)

def persisted (listed : List (Bytes × Entry)) : List PersistedEntry :=
  listed.map fun item => ⟨item.1,item.2.value,item.2.expiresAtWall⟩

/-- Behind the sync. From here on other threads can use the store, but not the engine. -/
def afterSync (io : SnapshotIo) (now : Int) : Except Failure Unit → Script (System config) (Except Failure Unit)
  | .error failure => .done (.error failure)
  | .ok () => (sweepScript true now (List.finRange config.shardCount) []).behind.append fun listed =>
    installScript io (persisted listed)

def snapshotScript (io : SnapshotIo) (now : Int) : Script (System config) (Except Failure Unit) :=
  .act false (fun system => (if system.1.fsync ≠ .none then system.1.wal.sync io.sync else .ok (),system)) (afterSync io now)

namespace Operation

/-- What the operation does to the store when everything it logs or saves is written. -/
def steps : Operation config → Script (Store config) Reply
  | .fsyncRound _ _ => .done .done
  | .keys pattern now =>
    if pattern ≠ [0x2A] then .done (.keys ⟨.unsupportedPattern,[]⟩)
    else (sweepScript false now (List.finRange config.shardCount) []).map fun listed =>
      .keys ⟨.ok,(listed.map Prod.fst).mergeSort Store.lexLe⟩
  | .exportSnapshotEntries now => (sweepScript false now (List.finRange config.shardCount) []).map fun listed =>
    .entries (persisted listed)
  | .activeExpireCycle samplesPerShard draws now =>
    if samplesPerShard = 0 then .done (.count 0)
    else (sampleScript samplesPerShard draws now (List.finRange config.shardCount) 0).map (.of .count)
  | .snapshotNow _ now => (sweepScript false now (List.finRange config.shardCount) []).map fun _ => .done
  | other => .atomic other.effect

def script : Operation config → Script (System config) Reply
  | .snapshotNow io now => (snapshotScript io now).map (.of fun _ => .done)
  | .durableSet io key value reading => .atomic (Operation.durableSet io key value reading).apply
  | .durableDel io names unlocking now => .atomic (Operation.durableDel io names unlocking now).apply
  | .durableExpire io key seconds wallNow first second =>
    .atomic (Operation.durableExpire io key seconds wallNow first second).apply
  | other => other.steps.behind

end Operation

theorem sweepScript_run (reserves : Bool) (now : Int) (store : Store config) :
    (sweepScript reserves now (List.finRange config.shardCount) []).run store = store.sweep now := by
  unfold Store.sweep
  generalize ([] : List (Bytes × Entry)) = listed
  induction List.finRange config.shardCount generalizing listed store with
  | nil => rfl
  | cons index rest ih => exact ih _ _

theorem sampleScript_run (engine : PersistenceEngine) (samplesPerShard : Nat) (draws : Nat → Nat → Nat) (now : Int)
    (indices : List (Fin config.shardCount)) (expired : Nat) (store : Store config) : ∃ count next,
      indices.foldlM (fun sample index => Store.sampleRound samplesPerShard index (draws index.val) now sample) (expired,store) =
        .ok (count,next) ∧
      (sampleScript samplesPerShard draws now indices expired).run store = (.ok count,next) := by
  induction indices generalizing expired store with
  | nil => exact ⟨expired,store,rfl,rfl⟩
  | cons index rest ih =>
    obtain ⟨count,next,round,_⟩ := run_sampleShard engine store samplesPerShard index (draws index.val) now expired
    obtain ⟨total,last,cycle,ran⟩ := ih count next
    refine ⟨total,last,?_,?_⟩
    · rw [List.foldlM_cons,round]
      exact cycle
    · simp only [sampleScript,Script.run,round,sampled]
      exact ran

theorem snapshotScript_run (io : SnapshotIo) (now : Int) (system : System config) :
    (snapshotScript io now).run system = system.1.snapshotNow io system.2 now := by
  simp only [snapshotScript,Script.run,PersistenceEngine.snapshotNow]
  rcases (if system.1.fsync ≠ .none then system.1.wal.sync io.sync else .ok () : Except Failure Unit) with failure | ⟨⟩
  · rfl
  · simp only [afterSync,Script.run_append,Script.run_behind,sweepScript_run,installScript,Script.run,installed,persisted,
      Store.exportSnapshotEntries]
    rcases Persistence.SnapshotStore.write io.snapshot system.1.snapshot system.1.wal.lastOffset _ with
      ⟨failure | ⟨⟩,written⟩ <;> rfl

/-- The actions of an operation, one after the other, are the sequential operation. -/
theorem script_run (operation : Operation config) (system : System config) :
    operation.script.run system = operation.apply system := by
  cases operation with
  | keys pattern now =>
    simp only [Operation.script,Operation.steps,Operation.apply,Operation.effect,Script.run_behind,Store.keys]
    split
    · rfl
    · rw [Script.run_map,sweepScript_run]
      rfl
  | exportSnapshotEntries now =>
    simp only [Operation.script,Operation.steps,Script.run_behind,Script.run_map,sweepScript_run]
    rfl
  | activeExpireCycle samplesPerShard draws now =>
    simp only [Operation.script,Operation.steps,Operation.apply,Operation.effect,Script.run_behind,Store.activeExpireCycle]
    split
    · rfl
    · obtain ⟨count,next,cycle,ran⟩ :=
        sampleScript_run system.1 samplesPerShard draws now (List.finRange config.shardCount) 0 system.2
      have cycle := congrArg (sampled system.2) cycle
      rw [Script.run_map,ran]
      exact congrArg (fun outcome => ((Reply.of .count outcome.1 : Reply),system.1,outcome.2)) cycle.symm
  | snapshotNow io now =>
    simp only [Operation.script,Script.run_map,snapshotScript_run]
    rfl
  | _ => rfl

end NovaCache.Concurrency
