import NovaCache.Completion
import NovaCache.Concurrency.Discipline

/-! The programs against the lists of actions. Whatever a program reads, the locks that it takes
and gives back are those of its operation, up to its end or up to an exception. -/
namespace NovaCache.Concurrency
open LockOrder (Mode Balanced guarded unwound)
open Sections
open Persistence (PersistenceEngine Io SnapshotIo WalOpcode FsyncMode)
open Locking (Lock Unlocking Actions)
open Store (shardIndex)

variable {config : StoreConfig} {Result : Type}

/-- Enough to read and write everything, where only the accesses matter. -/
def everyLock (config : StoreConfig) : Lock config → Option Mode := fun _ => some .exclusive

theorem everyLock_shard {index : Fin config.shardCount} : everyLock config (.shard index) = some .exclusive := rfl

theorem everyLock_held {lock : Lock config} : everyLock config lock ≠ none := Option.some_ne_none _

/-! Guards. -/

theorem takes_locked {lock : Lock config} {mode : Mode} {body : Program config Result}
    {allowed : Result → Actions config → Prop}
    (takes : Takes (fun result own => allowed result (guarded lock mode own)) body) :
    Takes allowed (locked lock mode body) := by
  change Takes (fun result own => allowed result (.acquire lock mode::own))
    (body >>= fun result => commit >>= fun _ => release lock >>= fun _ => pure result)
  exact takes_bind (takes.mono fun result own fits => fits)

theorem takes_walLocked {body : Program config Result} (inside : Inside (everyLock config) body) :
    Takes (fun _ own => own = Locking.lockWal) (walLocked body) := by
  change Takes (fun result own => .acquire .wal .exclusive::own = Locking.lockWal)
    (body >>= fun result => release .wal >>= fun _ => pure result)
  refine takes_bind (inside.takes.mono fun result own none => ?_)
  subst none
  rfl

theorem takes_shard {index : Fin config.shardCount} {mode : Mode} {body : Program config Result}
    (inside : Inside (everyLock config) body) :
    Takes (fun _ own => own = guarded (.shard index) mode []) (locked (.shard index) mode body) := by
  refine takes_locked (inside.takes.mono fun result own none => ?_)
  rw [none]

theorem takes_acquireAll (locks : List (Fin config.shardCount)) :
    Takes (fun _ own => own = (locks.map Lock.shard).map (.acquire · .exclusive)) (acquireAll locks) := by
  induction locks with
  | nil => rfl
  | cons index locks ih =>
    change Takes (fun _ own => .acquire (.shard index) .exclusive::own = _) (acquireAll locks)
    refine ih.mono fun _ own same => ?_
    rw [same]
    rfl

theorem takes_releaseAll (locks : List (Fin config.shardCount)) :
    Takes (fun _ own => own = (locks.map Lock.shard).map .release) (releaseAll locks) := by
  induction locks with
  | nil => rfl
  | cons index locks ih =>
    change Takes (fun _ own => .release (.shard index)::own = _) (releaseAll locks)
    refine ih.mono fun _ own same => ?_
    rw [same]
    rfl

theorem takes_lockedMany (keys : List Bytes) (unlocking : Unlocking keys config) {body : Program config Nat}
    (inside : Inside (everyLock config) body) :
    Takes (fun _ own => own = Locking.lockMany keys unlocking) (lockedMany keys unlocking body) := by
  unfold lockedMany Locking.lockMany
  split
  · rfl
  · refine takes_bind ((takes_acquireAll _).mono fun _ first acquired => ?_)
    refine takes_bind (inside.takes.mono fun count own none => ?_)
    change Takes _ (releaseAll unlocking.order >>= fun _ => pure count)
    refine takes_bind ((takes_releaseAll _).mono fun _ last released => ?_)
    change first ++ (own ++ (last ++ [])) = _
    rw [none,acquired,released,List.nil_append,List.append_nil]

/-! The operations of the store. -/

theorem takes_set (key : Bytes) (value : Value) (expiryWall : Option Int) (reading : Instant) :
    Takes (fun _ own => own = Locking.set key) (set key value expiryWall reading : Program config _) :=
  takes_shard (inside_setLocked everyLock_shard value expiryWall reading)

theorem takes_del (key : Bytes) (now : Int) : Takes (fun _ own => own = Locking.del key) (del key now : Program config _) :=
  takes_shard (inside_delLocked everyLock_shard now)

theorem takes_expireAt (key : Bytes) (expiryWall : Option Int) (first second : Instant) :
    Takes (fun _ own => own = Locking.expireAt key) (expireAt key expiryWall first second : Program config _) :=
  takes_shard (inside_expireAtLocked everyLock_shard expiryWall first second)

theorem takes_expire (key : Bytes) (seconds wallNow : Int) (first second : Instant) :
    Takes (fun _ own => own = Locking.expire key) (expire key seconds wallNow first second : Program config _) := by
  unfold expire
  split <;> exact takes_expireAt _ _ _ _

/-- A shared section, and an exclusive one if nothing was decided in it. -/
theorem takes_orRetry (key : Bytes) {shared : Program config (Option Result)} {retry : Program config Result}
    (first : Inside (everyLock config) shared) (second : Inside (everyLock config) retry) :
    Takes (fun _ own => ∃ expired, own = Locking.readEntry key expired) (do
      let found ← locked (.shard (shardIndex config key)) .shared shared
      orRetry (locked (.shard (shardIndex config key)) .exclusive retry) found) := by
  refine takes_bind ((takes_shard first).mono fun found own same => ?_)
  subst same
  cases found with
  | some => exact ⟨false,rfl⟩
  | none =>
    refine (takes_shard second).mono fun _ more same => ⟨true,?_⟩
    rw [same]
    rfl

theorem takes_lookupLive (key : Bytes) (now : Int) :
    Takes (fun _ own => ∃ expired, own = Locking.readEntry key expired) (lookupLive key now : Program config _) :=
  takes_orRetry key (inside_lookupShared everyLock_held now) (inside_findLocked everyLock_shard now)

theorem takes_ttl (key : Bytes) (now : Int) :
    Takes (fun _ own => ∃ expired, own = Locking.ttl key expired) (ttl key now : Program config _) :=
  takes_orRetry key (inside_ttlShared everyLock_held now) (inside_ttlLocked everyLock_shard now)

/-- The sections of these shards. -/
def shardSections (indices : List (Fin config.shardCount)) : Actions config :=
  indices.flatMap fun index => guarded (.shard index) .exclusive []

theorem balanced_shardSections (indices : List (Fin config.shardCount)) : Balanced (shardSections indices) :=
  .flatMap fun _ => Balanced.nil.guarded

theorem takes_sweepFrom (now : Int) (indices : List (Fin config.shardCount)) (listed : List (Bytes × Entry)) :
    Takes (fun _ own => own = shardSections indices) (sweepFrom now indices listed) := by
  induction indices generalizing listed with
  | nil => rfl
  | cons index rest ih =>
    refine takes_bind ((takes_shard (inside_sweepRound everyLock_shard now)).mono fun live own same => ?_)
    refine (ih _).mono fun _ more further => ?_
    rw [same,further]
    rfl

theorem takes_exportSnapshotEntries (now : Int) :
    Takes (fun _ own => own = Locking.exportSnapshotEntries) (exportSnapshotEntries now : Program config _) :=
  (takes_sweepFrom now _ []).result _

theorem takes_keys (pattern : Bytes) (now : Int) :
    Takes (fun _ own => own = Locking.keys pattern) (keys pattern now : Program config _) := by
  unfold keys Locking.keys
  split
  · rfl
  · exact (takes_sweepFrom now _ []).result _

/-- A draw that fails leaves the shards behind it unlocked. -/
theorem takes_sampleFrom (samplesPerShard : Nat) (draws : Nat → Nat → Nat) (now : Int)
    (indices : List (Fin config.shardCount)) (expired : Nat) :
    Takes (fun _ own => ∃ first second, indices = first ++ second ∧ own = shardSections first)
      (sampleFrom samplesPerShard draws now indices expired) := by
  induction indices generalizing expired with
  | nil => exact ⟨[],[],rfl,rfl⟩
  | cons index rest ih =>
    have inside := inside_sampleRound (@everyLock_shard config index) samplesPerShard (draws index.val) now expired
    refine takes_bind ((takes_shard inside).mono fun outcome own same => ?_)
    cases outcome with
    | error => exact ⟨[index],rest,rfl,by rw [same]; rfl⟩
    | ok expired =>
      refine (ih expired).mono fun _ more further => ?_
      obtain ⟨first,second,split,further⟩ := further
      refine ⟨index::first,second,congrArg (index::·) split,?_⟩
      rw [same,further]
      rfl

/-- An operation that runs to its end, or is left by an exception. -/
def Ends (actions own : Actions config) : Prop := own = actions ∨ ∃ count, own = unwound [] count actions

theorem takes_activeExpireCycle (samplesPerShard : Nat) (draws : Nat → Nat → Nat) (now : Int) :
    Takes (fun _ own => Ends (Locking.activeExpireCycle samplesPerShard) own)
      (activeExpireCycle samplesPerShard draws now : Program config _) := by
  unfold activeExpireCycle Locking.activeExpireCycle
  split
  · exact .inl rfl
  · refine (takes_sampleFrom samplesPerShard draws now _ 0).mono fun _ own sampled => ?_
    obtain ⟨first,second,all,rfl⟩ := sampled
    have sections : (Locking.everyShard : Actions config) = shardSections first ++ shardSections second := by
      rw [Locking.everyShard,all,List.flatMap_append]
      rfl
    refine .inr ⟨(shardSections first).length,?_⟩
    rw [sections,(balanced_shardSections first).unwound]

/-! The operations of the engine. -/

theorem inside_engine {rest : PersistenceEngine → Program config Result}
    (inside : ∀ engine, Inside (everyLock config) (rest engine)) :
    Inside (everyLock config) (readEngine >>= rest) := .bind ⟨everyLock_held,fun _ => trivial⟩ inside

theorem takes_append (io : Io) (opcode : WalOpcode) (payload : Bytes) :
    Takes (fun _ own => own = Locking.append) (append io opcode payload : Program config _) :=
  takes_walLocked (inside_engine fun _ => .bind ⟨rfl,trivial⟩ fun _ => trivial)

theorem takes_sync (fsync : Bool) : Takes (fun _ own => own = Locking.sync) (sync fsync : Program config _) :=
  takes_walLocked (inside_engine fun _ => trivial)

theorem takes_lastOffset : Takes (fun _ own => own = Locking.lastOffset) (lastOffset : Program config _) :=
  takes_walLocked (inside_engine fun _ => trivial)

theorem takes_truncateAfter (io : SnapshotIo) (offset : UInt64) :
    Takes (fun _ own => own = Locking.truncateAfter) (truncateAfter io offset : Program config _) :=
  takes_walLocked (inside_engine fun _ => .bind ⟨rfl,trivial⟩ fun _ => trivial)

theorem balanced_lockWal : Balanced (Locking.lockWal : Actions config) := Balanced.nil.guarded

theorem balanced_sync (asked : Prop) [Decidable asked] : Balanced (if asked then Locking.sync else [] : Actions config) := by
  split
  · exact balanced_lockWal
  · exact .nil

/-- What is done under the guard of the engine before an exception. -/
theorem Ends.early {first second : Actions config} (balanced : Balanced first) :
    Ends (guarded .engine .exclusive (first ++ second)) (guarded .engine .exclusive first) :=
  .inr ⟨first.length + 1,(balanced.unwound_guarded second).symm⟩

/-- The record is written and synced, if there is no exception before. -/
theorem takes_log (io : Io) (opcode : WalOpcode) (payload : Bytes) :
    Takes (fun outcome own => ∃ fsync second, Locking.append ++ Locking.durabilityAction fsync = own ++ second ∧
      Balanced own ∧ (outcome = .ok () → second = [])) (log io opcode payload : Program config _) := by
  refine takes_bind ((takes_append io opcode payload).mono fun outcome own same => ?_)
  subst same
  cases outcome with
  | error => exact ⟨.none,[],rfl,balanced_lockWal.append .nil,fun _ => rfl⟩
  | ok offset =>
    change ∀ engine : PersistenceEngine, Takes _ (if engine.fsync = .always then sync io.fsync else pure (.ok ()))
    intro engine
    split
    · refine (takes_sync io.fsync).mono fun _ more same => ?_
      subst same
      exact ⟨.always,[],rfl,balanced_lockWal.append balanced_lockWal,fun _ => rfl⟩
    · next lax =>
      refine ⟨engine.fsync,[],?_,balanced_lockWal.append .nil,fun _ => rfl⟩
      rw [Locking.durabilityAction,if_neg lax]
      rfl

/-- The mutation is applied unless there was an exception. -/
theorem takes_durably (io : Io) (opcode : WalOpcode) (payload : Bytes) {mutation : Program config Result}
    {actions : Actions config} (takes : Takes (fun _ own => own = actions) mutation) :
    Takes (fun _ own => ∃ fsync, Ends (Locking.durably fsync actions) own) (durably io opcode payload mutation) := by
  refine takes_locked (takes_bind ((takes_log io opcode payload).mono fun outcome own logged => ?_))
  obtain ⟨fsync,second,split,balanced,all⟩ := logged
  cases outcome with
  | error =>
    refine ⟨fsync,?_⟩
    rw [Locking.durably,split,List.append_nil,List.append_assoc]
    exact .early balanced
  | ok =>
    rw [all rfl,List.append_nil] at split
    refine takes_bind (takes.mono fun _ more same => ⟨fsync,.inl ?_⟩)
    rw [Locking.durably,split,same,List.append_nil]

theorem takes_syncUnlessNone (fsync : Bool) :
    Takes (fun _ own => ∃ mode, own = if mode ≠ FsyncMode.none then Locking.sync else [])
      (syncUnlessNone fsync : Program config _) := by
  change ∀ engine : PersistenceEngine, Takes _ (if engine.fsync ≠ .none then sync fsync else pure (.ok ()))
  intro engine
  split
  · next syncs => exact (takes_sync fsync).mono fun _ own same => ⟨engine.fsync,by rw [same,if_pos syncs]⟩
  · next none => exact ⟨engine.fsync,by rw [if_neg none]⟩

/-- The log is emptied unless the snapshot was not written. -/
theorem takes_rotate (io : SnapshotIo) (entries : List PersistedEntry) :
    Takes (fun _ own => own = Locking.lastOffset ∨ own = Locking.lastOffset ++ Locking.truncateAfter)
      (rotate io entries : Program config _) := by
  refine takes_bind (takes_lastOffset.mono fun offset own same => ?_)
  subst same
  change ∀ engine : PersistenceEngine, Takes _ (install io offset engine _)
  intro engine
  unfold install
  split
  · exact .inl (List.append_nil _)
  · have emptied : Takes (fun _ more => Locking.lastOffset ++ more = Locking.lastOffset ∨
        Locking.lastOffset ++ more = Locking.lastOffset ++ Locking.truncateAfter) (truncateAfter io offset : Program config _) := by
      refine (takes_truncateAfter io offset).mono fun _ more same => .inr ?_
      rw [same]
    exact emptied

theorem takes_snapshotNow (io : SnapshotIo) (now : Int) :
    Takes (fun _ own => ∃ fsync, Ends (Locking.snapshotNow fsync) own) (snapshotNow io now : Program config _) := by
  refine takes_locked (takes_bind ((takes_syncUnlessNone io.sync).mono fun outcome own synced => ?_))
  obtain ⟨fsync,rfl⟩ := synced
  change Takes _ (saveSnapshot io now outcome)
  have exported : Balanced (Locking.exportSnapshotEntries : Actions config) := balanced_shardSections _
  cases outcome with
  | error =>
    refine ⟨fsync,?_⟩
    rw [Locking.snapshotNow,List.append_assoc,List.append_assoc,List.append_nil]
    exact .early (balanced_sync _)
  | ok =>
    refine takes_bind ((takes_exportSnapshotEntries now).mono fun entries listed same => ?_)
    subst same
    refine (takes_rotate io entries).mono fun _ rest rotated => ⟨fsync,?_⟩
    rcases rotated with rfl | rfl
    · rw [Locking.snapshotNow,← List.append_assoc]
      exact .early (((balanced_sync _).append exported).append balanced_lockWal)
    · refine .inl ?_
      simp only [Locking.snapshotNow,List.append_assoc]

theorem takes_waitFor (waits : Nat) : Takes (fun _ own => own = Locking.waitFor waits) (waitFor waits : Program config _) := by
  induction waits with
  | zero => rfl
  | succ waits ih =>
    change Takes (fun _ own => .release .engine::.acquire .engine .exclusive::own = _) (waitFor waits)
    refine ih.mono fun _ own same => ?_
    rw [same]
    rfl

theorem takes_fsyncRound (waits : Nat) (stopping : Bool) :
    Takes (fun _ own => own = Locking.fsyncRound waits stopping) (fsyncRound waits stopping : Program config _) := by
  change Takes (fun _ own => .acquire .engine .exclusive::own = _) (waitFor waits >>= fun _ => release .engine >>= fun _ =>
    if stopping then pure () else acquire .wal .exclusive >>= fun _ => release .wal)
  refine takes_bind ((takes_waitFor waits).mono fun _ own same => ?_)
  subst same
  cases stopping with
  | true =>
    change .acquire .engine .exclusive::(Locking.waitFor waits ++ [.release .engine]) = _
    simp [Locking.fsyncRound,guarded]
  | false =>
    change .acquire .engine .exclusive::(Locking.waitFor waits ++
      [.release .engine,.acquire .wal .exclusive,.release .wal]) = _
    simp [Locking.fsyncRound,guarded,Locking.sync,Locking.lockWal]

/-- The operation among the lists of actions; whether a reader finds an expired entry is not known
before. -/
def Operation.locking (operation : Operation config) (expired : Bool) : Locking.Operation config :=
  match operation with
  | .set key _ _ _ => .set key
  | .get key _ => .get key expired
  | .existsKey key _ => .existsKey key expired
  | .ttl key _ => .ttl key expired
  | .expiryWallTime key _ => .expiryWallTime key expired
  | .del key _ => .del key
  | .expireAt key _ _ _ => .expireAt key
  | .expire key _ _ _ _ => .expire key
  | .delMany names unlocking _ => .delMany names unlocking
  | .existsMany names unlocking _ => .existsMany names unlocking
  | .durableSet _ key _ _ => .durableSet key
  | .durableDel _ names unlocking _ => .durableDel names unlocking
  | .durableExpire _ key _ _ _ _ => .durableExpire key
  | .fsyncRound waits stopping => .fsyncRound waits stopping
  | .keys pattern _ => .keys pattern
  | .exportSnapshotEntries _ => .exportSnapshotEntries
  | .activeExpireCycle samplesPerShard _ _ => .activeExpireCycle samplesPerShard
  | .snapshotNow _ _ => .snapshotNow

/-- An attempt at the operation locks and unlocks so. -/
def Attempted (operation : Operation config) (own : Actions config) : Prop :=
  ∃ fsync expired thrown, own = Locking.Attempt.actions fsync ⟨operation.locking expired,thrown⟩

theorem Attempted.whole {operation : Operation config} (fsync : FsyncMode) (expired : Bool) :
    Attempted operation ((operation.locking expired).actions fsync) := ⟨fsync,expired,none,rfl⟩

theorem Ends.attempted {operation : Operation config} {own : Actions config} {fsync : FsyncMode}
    (ends : Ends ((operation.locking false).actions fsync) own) : Attempted operation own := by
  rcases ends with rfl | ⟨count,rfl⟩
  · exact .whole fsync false
  · exact ⟨fsync,false,some count,rfl⟩

section replies
variable {operation : Operation config} {program : Program config Result} (reply : Result → Reply)

theorem attempts_whole (takes : Takes (fun _ own => own = (operation.locking false).actions .none) program) :
    Takes (fun _ => Attempted operation) (program >>= fun result => pure (reply result)) := by
  refine (takes.mono fun _ own same => ?_).result reply
  rw [same]
  exact .whole .none false

theorem attempts_expired (takes : Takes (fun _ own => ∃ expired, own = (operation.locking expired).actions .none) program) :
    Takes (fun _ => Attempted operation) (program >>= fun result => pure (reply result)) := by
  refine (takes.mono fun _ own found => ?_).result reply
  obtain ⟨expired,rfl⟩ := found
  exact .whole .none expired

theorem attempts_ended (takes : Takes (fun _ own => ∃ fsync, Ends ((operation.locking false).actions fsync) own) program) :
    Takes (fun _ => Attempted operation) (program >>= fun result => pure (reply result)) := by
  refine (takes.mono fun _ own left => ?_).result reply
  obtain ⟨fsync,ends⟩ := left
  exact ends.attempted

end replies

/-- Whatever the programs read, and so however they interleave, each takes and gives back the
locks of an attempt at its operation, in this order. -/
theorem program_attempted (operation : Operation config) : Takes (fun _ => Attempted operation) operation.program := by
  cases operation with
  | set key value expiryWall reading => exact attempts_whole _ (takes_set key value expiryWall reading)
  | get key now => exact attempts_expired _ ((takes_lookupLive key now).result _)
  | existsKey key now => exact attempts_expired _ ((takes_lookupLive key now).result _)
  | ttl key now => exact attempts_expired _ (takes_ttl key now)
  | expiryWallTime key now => exact attempts_expired _ ((takes_lookupLive key now).result _)
  | del key now => exact attempts_whole _ (takes_del key now)
  | expireAt key expiryWall first second => exact attempts_whole _ (takes_expireAt key expiryWall first second)
  | expire key seconds wallNow first second => exact attempts_whole _ (takes_expire key seconds wallNow first second)
  | delMany keys unlocking now =>
    exact attempts_whole _ (takes_lockedMany keys unlocking (inside_delManyLocked (fun _ _ => rfl) now 0))
  | existsMany keys unlocking now =>
    exact attempts_whole _ (takes_lockedMany keys unlocking (inside_existsManyLocked (fun _ _ => rfl) now 0))
  | durableSet io key value reading => exact attempts_ended _ (takes_durably io _ _ (takes_set key _ none reading))
  | durableDel io keys unlocking now =>
    exact attempts_ended _ (takes_durably io _ _ (takes_lockedMany keys unlocking (inside_delManyLocked (fun _ _ => rfl) now 0)))
  | durableExpire io key seconds wallNow first second =>
    exact attempts_ended _ (takes_durably io _ _ (takes_expireAt key _ first second))
  | fsyncRound waits stopping => exact attempts_whole _ (takes_fsyncRound waits stopping)
  | keys pattern now => exact attempts_whole _ (takes_keys pattern now)
  | exportSnapshotEntries now => exact attempts_whole _ (takes_exportSnapshotEntries now)
  | activeExpireCycle samplesPerShard draws now =>
    exact attempts_ended _ ((takes_activeExpireCycle samplesPerShard draws now).mono fun _ own ends => ⟨.none,ends⟩)
  | snapshotNow io now => exact attempts_ended _ (takes_snapshotNow io now)

/-- The same for the locks of a program that nothing interrupts. -/
theorem locks_attempted (operation : Operation config) (memory : Memory (Lock config) (Content config) Counters) :
    Attempted operation (locks operation.program memory) := by
  obtain ⟨_,attempted⟩ := (program_attempted operation).locks memory
  exact attempted

end NovaCache.Concurrency
