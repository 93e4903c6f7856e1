import NovaCache.Concurrency.Programs

/-! Every program accesses shards and engine under their locks, takes no lock twice, and gives
none back that a section of it still needs. -/
namespace NovaCache.Concurrency
open LockOrder (Mode)
open Sections
open Persistence (PersistenceEngine Io SnapshotIo WalOpcode)
open Locking (Lock Unlocking lockMutexesInOrder rank)
open Store (shardIndex)

variable {config : StoreConfig} {Result : Type} {held : Lock config → Option Mode}

/-! Inside the guard of a shard. -/

theorem inside_readShard {index : Fin config.shardCount} (holds : held (.shard index) ≠ none) :
    Inside held (readShard index) := ⟨holds,fun _ => trivial⟩

section exclusive
variable {index : Fin config.shardCount} (holds : held (.shard index) = some .exclusive)
include holds

theorem inside_read : Inside held (readShard index) := inside_readShard (holds.trans_ne nofun)

theorem inside_eraseEntry (key : Bytes) (entry : Entry) : Inside held (eraseEntry index key entry) :=
  .bind trivial fun _ => (inside_read holds).bind fun _ => ⟨holds,trivial⟩

theorem inside_eraseExpiredLocked (key : Bytes) (entry : Entry) (now : Int) :
    Inside held (eraseExpiredLocked index key entry now) := by
  unfold eraseExpiredLocked
  split
  · trivial
  · exact (inside_eraseEntry holds key entry).bind fun _ => .bind trivial fun _ => trivial

theorem inside_sweepLocked (now : Int) (items : List ((_ : Bytes) × Entry)) (live : List (Bytes × Entry)) :
    Inside held (sweepLocked index now items live) := by
  induction items generalizing live with
  | nil => trivial
  | cons item items ih =>
    unfold sweepLocked
    split
    · exact (inside_eraseEntry holds _ _).bind fun _ => .bind trivial fun _ => ih live
    · exact ih _

theorem inside_sampleLocked (draws : Nat → Nat) (now : Int) (attempts expired : Nat) :
    Inside held (sampleLocked index draws now attempts expired) := by
  induction attempts generalizing expired with
  | zero => trivial
  | succ attempts ih =>
    refine (inside_read holds).bind fun shard => ?_
    split
    · trivial
    · exact (inside_eraseExpiredLocked holds _ _ now).bind fun erased => ih _

theorem inside_sweepRound (now : Int) :
    Inside held (readShard index >>= fun shard => sweepLocked index now shard.entries []) :=
  (inside_read holds).bind fun _ => inside_sweepLocked holds now _ _

theorem inside_sampleRound (samplesPerShard : Nat) (draws : Nat → Nat) (now : Int) (expired : Nat) :
    Inside held (readShard index >>= fun shard => if shard.entries.length = 0 then pure (.ok expired)
      else sampleLocked index draws now (min samplesPerShard shard.entries.length) expired) := by
  refine (inside_read holds).bind fun shard => ?_
  split
  · trivial
  · exact inside_sampleLocked holds draws now _ expired

end exclusive

section keys
variable {key : Bytes} (holds : held (.shard (shardIndex config key)) = some .exclusive)
include holds

theorem inside_findLocked (now : Int) : Inside held (findLocked key now : Program config _) := by
  refine (inside_read holds).bind fun shard => ?_
  split
  · trivial
  · refine (inside_eraseExpiredLocked holds key _ now).bind fun erased => ?_
    split <;> trivial

theorem inside_storeEntry (entry : Entry) (now : Int) : Inside held (storeEntry key entry now : Program config _) := by
  refine (inside_read holds).bind fun shard => .bind ?_ fun _ => trivial
  unfold assign
  split
  · exact ⟨holds,trivial⟩
  · refine .bind ?_ fun _ => .bind trivial fun _ => ⟨holds,trivial⟩
    split <;> trivial

theorem inside_setLocked (value : Value) (expiryWall : Option Int) (reading : Instant) :
    Inside held (setLocked key value expiryWall reading : Program config _) := by
  unfold setLocked
  split
  · exact inside_storeEntry holds _ _
  · split
    · refine (inside_read holds).bind fun shard => ?_
      split
      · trivial
      · exact (inside_eraseEntry holds key _).bind fun _ => trivial
    · exact inside_storeEntry holds _ _

theorem inside_delLocked (now : Int) : Inside held (delLocked key now : Program config _) := by
  refine (inside_findLocked holds now).bind fun found => ?_
  split
  · trivial
  · exact (inside_eraseEntry holds key _).bind fun _ => trivial

theorem inside_expireAtLocked (expiryWall : Option Int) (first second : Instant) :
    Inside held (expireAtLocked key expiryWall first second : Program config _) := by
  have erased : ∀ entry, Inside held (eraseEntry (shardIndex config key) key entry >>= fun _ => pure true) :=
    fun entry => (inside_eraseEntry holds key entry).bind fun _ => trivial
  refine (inside_findLocked holds first.now).bind fun found => ?_
  split
  · trivial
  · split
    · exact erased _
    · split
      · exact erased _
      · exact (inside_read holds).bind fun shard => ⟨holds,trivial⟩

theorem inside_ttlLocked (now : Int) : Inside held (ttlLocked key now : Program config _) := by
  refine (inside_read holds).bind fun shard => ?_
  split
  · trivial
  · split
    · trivial
    · refine (inside_eraseExpiredLocked holds key _ now).bind fun erased => ?_
      split <;> trivial

end keys

section shared
variable {key : Bytes} (holds : held (.shard (shardIndex config key)) ≠ none)
include holds

theorem inside_lookupShared (now : Int) : Inside held (lookupShared key now : Program config _) := by
  refine (inside_readShard holds).bind fun shard => ?_
  split
  · trivial
  · split <;> trivial

theorem inside_ttlShared (now : Int) : Inside held (ttlShared key now : Program config _) := by
  refine (inside_readShard holds).bind fun shard => ?_
  split
  · trivial
  · split
    · trivial
    · split <;> trivial

end shared

section several
variable {keys : List Bytes} (holds : ∀ key ∈ keys, held (.shard (shardIndex config key)) = some .exclusive)
include holds

theorem inside_delManyLocked (now : Int) (removed : Nat) : Inside held (delManyLocked now keys removed : Program config _) := by
  induction keys generalizing removed with
  | nil => trivial
  | cons key keys ih =>
    obtain ⟨head,tail⟩ := List.forall_mem_cons.mp holds
    refine (inside_findLocked head now).bind fun found => ?_
    split
    · exact ih tail removed
    · exact (inside_eraseEntry head key _).bind fun _ => ih tail (removed + 1)

theorem inside_existsManyLocked (now : Int) (count : Nat) : Inside held (existsManyLocked now keys count : Program config _) := by
  induction keys generalizing count with
  | nil => trivial
  | cons key keys ih =>
    obtain ⟨head,tail⟩ := List.forall_mem_cons.mp holds
    refine (inside_findLocked head now).bind fun found => ?_
    split <;> exact ih tail _

end several

/-! Guards. -/

theorem keeps_commit : Keeps rank held (commit : Program config Unit) := fun _ same _ => ⟨same,fun _ member => member.elim⟩

theorem closes_locked {lock : Lock config} {mode : Mode} {body : Program config Result} (above : Above rank held lock)
    (keeps : Keeps rank (Function.update held lock (some mode)) body) : Closes rank held (locked lock mode body) := by
  intro grip same within
  subst same
  have outside : lock ∉ grip.touched := fun member => within lock member above.free
  refine ⟨above,?_⟩
  change Guarded rank _ _ (body >>= fun result => commit >>= fun _ => release lock >>= fun _ => pure result)
  refine guarded_bind ((keeps _ rfl (Grip.within_hold within outside)).mono fun result after kept => ?_)
  have back : Function.update after.held lock none = grip.held := by
    rw [kept.1,Function.update_idem,Function.update_eq_self_iff,above.free]
  have holds : after.held lock ≠ none := by
    rw [kept.1,Function.update_self]
    nofun
  refine ⟨holds,Set.notMem_empty lock,?_⟩
  change Grip.mk _ _ _ = _
  exact congrArg (Grip.mk · ∅ false) back

theorem closes_shard {index : Fin config.shardCount} {mode : Mode} {body : Program config Result}
    (above : Above rank held (.shard index))
    (inside : Inside (Function.update held (.shard index) (some mode)) body) :
    Closes rank held (locked (.shard index) mode body) :=
  closes_locked above inside.keeps

/-- The locks with those of some shards besides. -/
def taken (held : Lock config → Option Mode) (locks : List (Fin config.shardCount)) : Lock config → Option Mode
  | .shard index => if index ∈ locks then some .exclusive else held (.shard index)
  | lock => held lock

theorem taken_nil : taken held [] = held := by
  funext lock
  cases lock <;> simp [taken]

theorem taken_cons (index : Fin config.shardCount) (locks : List (Fin config.shardCount)) :
    taken (Function.update held (.shard index) (some .exclusive)) locks = taken held (index::locks) := by
  funext lock
  cases lock with
  | engine | wal => simp [taken]
  | shard other =>
    by_cases same : other = index
    · subst same
      simp [taken]
    · simp [taken,same]

theorem taken_within {touched : Set (Lock config)} {counted : Bool} {locks : List (Fin config.shardCount)}
    (within : (Grip.mk held touched counted).Within) : (Grip.mk (taken held locks) touched counted).Within := by
  intro lock member
  have before : held lock ≠ none := within lock member
  cases lock with
  | engine | wal => exact before
  | shard index =>
    change (if index ∈ locks then some Mode.exclusive else held (.shard index)) ≠ none
    split
    · nofun
    · exact before

theorem above_shard {index other : Fin config.shardCount} (above : Above rank held (.shard other)) (less : index < other) :
    Above rank (Function.update held (.shard index) (some .exclusive)) (.shard other) := by
  intro lock holds
  by_cases here : lock = .shard index
  · subst here
    exact Nat.add_lt_add_right less 2
  · rw [Function.update_of_ne here] at holds
    exact above lock holds

theorem guarded_acquireAll {finish : Result → Grip (Lock config) → Prop} {locks : List (Fin config.shardCount)}
    {rest : Program config Result} {touched : Set (Lock config)} {counted : Bool} (ascending : locks.Pairwise (· < ·))
    (above : ∀ index, Above rank held (.shard index))
    (continues : Guarded rank finish ⟨taken held locks,touched,counted⟩ rest) :
    Guarded rank finish ⟨held,touched,counted⟩ (acquireAll locks >>= fun _ => rest) := by
  suffices general : ∀ held : Lock config → Option Mode, (∀ index ∈ locks, Above rank held (.shard index)) →
      Guarded rank finish ⟨taken held locks,touched,counted⟩ rest →
        Guarded rank finish ⟨held,touched,counted⟩ (acquireAll locks >>= fun _ => rest) from
    general held (fun index _ => above index) continues
  clear above continues
  intro held above continues
  induction locks generalizing held with
  | nil =>
    rw [taken_nil] at continues
    exact continues
  | cons index locks ih =>
    obtain ⟨less,ascending⟩ := List.pairwise_cons.mp ascending
    refine ⟨above index List.mem_cons_self,ih ascending _ (fun other member => ?_) ?_⟩
    · exact above_shard (above other (List.mem_cons_of_mem _ member)) (less other member)
    · rw [taken_cons]
      exact continues

theorem guarded_releaseAll {finish : Result → Grip (Lock config) → Prop} {locks : List (Fin config.shardCount)}
    {rest : Program config Result} (nodup : locks.Nodup) (free : ∀ index ∈ locks, held (.shard index) = none)
    (continues : Guarded rank finish ⟨held,∅,false⟩ rest) :
    Guarded rank finish ⟨taken held locks,∅,false⟩ (releaseAll locks >>= fun _ => rest) := by
  induction locks with
  | nil =>
    rw [taken_nil]
    exact continues
  | cons index locks ih =>
    obtain ⟨fresh,nodup⟩ := List.nodup_cons.mp nodup
    have holds : taken held (index::locks) (.shard index) ≠ none := by simp [taken]
    refine ⟨holds,Set.notMem_empty _,?_⟩
    have back : Function.update (taken held (index::locks)) (.shard index) none = taken held locks := by
      funext lock
      cases lock with
      | engine | wal => simp [taken]
      | shard other =>
        by_cases same : other = index
        · subst same
          simp [taken,fresh,free other List.mem_cons_self]
        · simp [taken,same]
    change Guarded rank finish ⟨Function.update _ _ _,∅,false⟩ (releaseAll locks >>= fun _ => rest)
    rw [back]
    exact ih nodup fun other member => free other (List.mem_cons_of_mem _ member)

theorem mem_lockMutexesInOrder {mutexes : List (Fin config.shardCount)} {index : Fin config.shardCount} :
    index ∈ lockMutexesInOrder mutexes ↔ index ∈ mutexes := by
  have sorted : (mutexes.mergeSort fun one two => one ≤ two).Pairwise (· ≤ ·) := by
    simpa using List.pairwise_mergeSort' (· ≤ ·) mutexes
  rw [lockMutexesInOrder,sorted.destutter_eq_dedup,List.mem_dedup,List.mem_mergeSort]

theorem keeps_lockedMany {keys : List Bytes} {unlocking : Unlocking keys config} {body : Program config Nat}
    (above : ∀ index, Above rank held (.shard index))
    (inside : ∀ held : Lock config → Option Mode,
      (∀ key ∈ keys, held (.shard (shardIndex config key)) = some .exclusive) → Inside held body) :
    Keeps rank held (lockedMany keys unlocking body) ∧ Tidy rank held (lockedMany keys unlocking body) := by
  unfold lockedMany
  split
  · exact ⟨keeps_pure 0,tidy_pure 0⟩
  · suffices closes : Closes rank held _ from ⟨closes.keeps,closes.tidy⟩
    rintro ⟨own,touched,counted⟩ same within
    obtain rfl : held = own := same.symm
    have ascending := Locking.lockMutexesInOrder_ascending (keys.map (shardIndex config))
    have nodup : (lockMutexesInOrder (keys.map (shardIndex config))).Nodup := ascending.imp fun less => less.ne
    refine guarded_acquireAll ascending above ?_
    have holds : ∀ key ∈ keys,
        taken held (lockMutexesInOrder (keys.map (shardIndex config))) (.shard (shardIndex config key)) = some .exclusive :=
      fun key member => if_pos (mem_lockMutexesInOrder.mpr (List.mem_map_of_mem member))
    change Guarded rank _ _ (body >>= fun count => commit >>= fun _ => releaseAll unlocking.order >>= fun _ => pure count)
    refine guarded_bind ((inside _ holds).guarded (fun _ _ => rfl) (taken_within within) fun count after same _ => ?_)
    have all : taken held (lockMutexesInOrder (keys.map (shardIndex config))) = taken held unlocking.order := by
      funext lock
      cases lock <;> simp [taken,unlocking.all.mem_iff]
    change Guarded rank _ ⟨after.held,∅,false⟩ (releaseAll unlocking.order >>= fun _ => pure count)
    rw [same,all]
    exact guarded_releaseAll (unlocking.all.nodup_iff.mpr nodup) (fun index _ => (above index).free) rfl

/-! The operations of the store, while only locks below the shards are held. -/

section store
variable (above : ∀ index, Above rank held (.shard index))
include above

theorem closes_set (key : Bytes) (value : Value) (expiryWall : Option Int) (reading : Instant) :
    Closes rank held (set key value expiryWall reading : Program config _) :=
  closes_shard (above _) (inside_setLocked (Function.update_self ..) value expiryWall reading)

theorem closes_lookupLive (key : Bytes) (now : Int) : Closes rank held (lookupLive key now : Program config _) := by
  have shared : Function.update held (.shard (shardIndex config key)) (some .shared) (.shard (shardIndex config key)) ≠ none :=
    (Function.update_self ..).trans_ne nofun
  refine (closes_shard (above _) (inside_lookupShared shared now)).bind fun found => ?_
  cases found with
  | some => exact tidy_pure _
  | none => exact (closes_shard (above _) (inside_findLocked (Function.update_self ..) now)).tidy

theorem closes_ttl (key : Bytes) (now : Int) : Closes rank held (ttl key now : Program config _) := by
  have shared : Function.update held (.shard (shardIndex config key)) (some .shared) (.shard (shardIndex config key)) ≠ none :=
    (Function.update_self ..).trans_ne nofun
  refine (closes_shard (above _) (inside_ttlShared shared now)).bind fun found => ?_
  cases found with
  | some => exact tidy_pure _
  | none => exact (closes_shard (above _) (inside_ttlLocked (Function.update_self ..) now)).tidy

theorem closes_del (key : Bytes) (now : Int) : Closes rank held (del key now : Program config _) :=
  closes_shard (above _) (inside_delLocked (Function.update_self ..) now)

theorem closes_expireAt (key : Bytes) (expiryWall : Option Int) (first second : Instant) :
    Closes rank held (expireAt key expiryWall first second : Program config _) :=
  closes_shard (above _) (inside_expireAtLocked (Function.update_self ..) expiryWall first second)

theorem closes_expire (key : Bytes) (seconds wallNow : Int) (first second : Instant) :
    Closes rank held (expire key seconds wallNow first second : Program config _) := by
  unfold expire
  split <;> exact closes_expireAt above _ _ _ _

theorem delMany_ordered (keys : List Bytes) (unlocking : Unlocking keys config) (now : Int) :
    Keeps rank held (delMany keys unlocking now) ∧ Tidy rank held (delMany keys unlocking now) :=
  keeps_lockedMany above fun _ holds => inside_delManyLocked holds now 0

theorem existsMany_ordered (keys : List Bytes) (unlocking : Unlocking keys config) (now : Int) :
    Keeps rank held (existsMany keys unlocking now) ∧ Tidy rank held (existsMany keys unlocking now) :=
  keeps_lockedMany above fun _ holds => inside_existsManyLocked holds now 0

theorem closes_sweepShard (index : Fin config.shardCount) (now : Int) : Closes rank held (sweepShard index now) :=
  closes_shard (above index) (inside_sweepRound (Function.update_self ..) now)

theorem sweep_ordered (now : Int) : Keeps rank held (sweep now : Program config _) ∧ Tidy rank held (sweep now : Program config _) := by
  unfold sweep
  generalize ([] : List (Bytes × Entry)) = listed
  induction List.finRange config.shardCount generalizing listed with
  | nil => exact ⟨keeps_pure listed,tidy_pure listed⟩
  | cons index rest ih =>
    have closes := closes_sweepShard above index now
    exact ⟨closes.keeps.bind fun live => (ih _).1,closes.tidy.bind fun live => (ih _).2⟩

theorem closes_sampleShard (samplesPerShard : Nat) (index : Fin config.shardCount) (draws : Nat → Nat) (now : Int)
    (expired : Nat) : Closes rank held (sampleShard samplesPerShard index draws now expired) :=
  closes_shard (above index) (inside_sampleRound (Function.update_self ..) samplesPerShard draws now expired)

theorem tidy_activeExpireCycle (samplesPerShard : Nat) (draws : Nat → Nat → Nat) (now : Int) :
    Tidy rank held (activeExpireCycle samplesPerShard draws now : Program config _) := by
  unfold activeExpireCycle
  split
  · exact tidy_pure _
  · generalize 0 = expired
    induction List.finRange config.shardCount generalizing expired with
    | nil => exact tidy_pure _
    | cons index rest ih =>
      refine (closes_sampleShard above samplesPerShard index (draws index.val) now expired).tidy.bind fun outcome => ?_
      split
      · exact tidy_pure _
      · exact ih _

end store

/-! The operations of the engine, while it is held. -/

/-- What is held inside the guard of the engine. -/
def engineHeld (config : StoreConfig) : Lock config → Option Mode := Function.update (fun _ => none) .engine (some .exclusive)

theorem engineHeld_below {lock : Lock config} (above : 0 < rank lock) : Above rank (engineHeld config) lock := by
  intro other holds
  cases other with
  | engine => exact above
  | wal | shard => exact absurd rfl holds

theorem engineHeld_shard (index : Fin config.shardCount) : Above rank (engineHeld config) (.shard index) :=
  engineHeld_below (Nat.succ_pos _)

theorem nothing_below (lock : Lock config) : Above rank (fun _ => none) lock := fun _ holds => absurd rfl holds

theorem inside_readEngine : Inside (engineHeld config) readEngine := ⟨nofun,fun _ => trivial⟩

theorem inside_writeEngine (engine : PersistenceEngine) : Inside (engineHeld config) (writeEngine engine) := ⟨rfl,trivial⟩

/-- The lock of the log can be given back before the commit, since its own cell is not touched. -/
theorem keeps_walLocked {body : Program config Result} (inside : Inside (engineHeld config) body) :
    Keeps rank (engineHeld config) (walLocked body) := by
  rintro ⟨own,touched,counted⟩ same within
  obtain rfl : engineHeld config = own := same.symm
  refine ⟨engineHeld_below Nat.one_pos,?_⟩
  change Guarded rank _ _ (body >>= fun result => release .wal >>= fun _ => pure result)
  refine guarded_bind (inside.guarded (fun lock holds => ?_) within fun result after kept within => ?_)
  · have different : lock ≠ .wal := by
      rintro rfl
      exact holds rfl
    exact Function.update_of_ne different ..
  · have back : Function.update after.held .wal none = engineHeld config := by
      rw [kept]
      change Function.update (Function.update _ _ _) _ _ = _
      rw [Function.update_idem,Function.update_eq_self_iff]
      rfl
    have holds : after.held .wal ≠ none := by
      rw [kept]
      nofun
    refine ⟨holds,fun member => within .wal member rfl,back,?_⟩
    change ∀ lock ∈ after.touched, Function.update after.held .wal none lock ≠ none
    rw [back]
    exact within

theorem keeps_append (io : Io) (opcode : WalOpcode) (payload : Bytes) :
    Keeps rank (engineHeld config) (append io opcode payload) :=
  keeps_walLocked (inside_readEngine.bind fun _ => (inside_writeEngine _).bind fun _ => trivial)

theorem keeps_sync (fsync : Bool) : Keeps rank (engineHeld config) (sync fsync) :=
  keeps_walLocked (inside_readEngine.bind fun _ => trivial)

theorem keeps_lastOffset : Keeps rank (engineHeld config) lastOffset :=
  keeps_walLocked (inside_readEngine.bind fun _ => trivial)

theorem keeps_truncateAfter (io : SnapshotIo) (offset : UInt64) : Keeps rank (engineHeld config) (truncateAfter io offset) :=
  keeps_walLocked (inside_readEngine.bind fun _ => (inside_writeEngine _).bind fun _ => trivial)

theorem keeps_log (io : Io) (opcode : WalOpcode) (payload : Bytes) : Keeps rank (engineHeld config) (log io opcode payload) := by
  refine (keeps_append io opcode payload).bind fun outcome => ?_
  split
  · exact keeps_pure _
  · refine inside_readEngine.keeps.bind fun engine => ?_
    split
    · exact keeps_sync io.fsync
    · exact keeps_pure _

theorem keeps_rotate (io : SnapshotIo) (entries : List PersistedEntry) : Keeps rank (engineHeld config) (rotate io entries) := by
  refine keeps_lastOffset.bind fun offset => inside_readEngine.keeps.bind fun engine => ?_
  unfold install
  split
  · exact keeps_pure _
  · refine (inside_writeEngine _).keeps.bind fun _ => ?_
    exact keeps_commit.bind fun _ => keeps_truncateAfter io offset

theorem tidy_durably (io : Io) (opcode : WalOpcode) (payload : Bytes) {mutation : Program config Result}
    (keeps : Keeps rank (engineHeld config) mutation) : Tidy rank (fun _ => none) (durably io opcode payload mutation) := by
  refine (closes_locked (nothing_below _) ((keeps_log io opcode payload).bind fun outcome => ?_)).tidy
  split
  · exact keeps_pure _
  · exact keeps.bind fun result => keeps_pure _

theorem tidy_snapshotNow (io : SnapshotIo) (now : Int) :
    Tidy rank (fun _ => none) (snapshotNow io now : Program config _) := by
  have synced : Keeps rank (engineHeld config) (syncUnlessNone io.sync) := by
    refine inside_readEngine.keeps.bind fun engine => ?_
    split
    · exact keeps_sync io.sync
    · exact keeps_pure _
  refine (closes_locked (nothing_below _) (synced.bind fun outcome => keeps_commit.bind fun _ => ?_)).tidy
  cases outcome with
  | error failure => exact keeps_pure _
  | ok =>
    refine Keeps.bind ?_ fun entries => keeps_rotate io entries
    exact (sweep_ordered engineHeld_shard now).1.bind fun listed => keeps_pure _

theorem tidy_waitFor (waits : Nat) : Tidy rank (engineHeld config) (waitFor waits) := by
  induction waits with
  | zero => exact tidy_pure ()
  | succ waits ih =>
    have again : Function.update (Function.update (engineHeld config) .engine none) .engine (some .exclusive) =
        engineHeld config := by
      rw [Function.update_idem]
      exact Function.update_idem ..
    have alone : Above rank (Function.update (engineHeld config) .engine none) .engine := by
      rw [engineHeld,Function.update_idem,Function.update_eq_self]
      exact nothing_below _
    refine ⟨nofun,Set.notMem_empty _,alone,?_⟩
    change Guarded rank _ ⟨Function.update (Function.update (engineHeld config) .engine none) .engine (some .exclusive),∅,false⟩
      (waitFor waits)
    rw [again]
    exact ih

theorem tidy_fsyncRound (waits : Nat) (stopping : Bool) :
    Tidy rank (fun _ => none) (fsyncRound waits stopping : Program config _) := by
  have given : ∀ lock : Lock config,
      Function.update (Function.update (fun _ => none) lock (some Mode.exclusive)) lock none = fun _ => none := by
    intro lock
    rw [Function.update_idem,Function.update_eq_self_iff]
  refine ⟨nothing_below _,?_⟩
  change Guarded rank _ ⟨engineHeld config,∅,false⟩ (waitFor waits >>= fun _ => release .engine >>= fun _ =>
    if stopping then pure () else acquire .wal .exclusive >>= fun _ => release .wal)
  refine guarded_bind ((tidy_waitFor waits).mono fun _ after closed => ?_)
  subst closed
  refine ⟨nofun,Set.notMem_empty _,?_⟩
  change Guarded rank _ ⟨Function.update (engineHeld config) .engine none,∅,false⟩
    (if stopping then pure () else acquire .wal .exclusive >>= fun _ => release .wal)
  rw [engineHeld,given]
  split
  · rfl
  · exact ⟨nothing_below _,nofun,Set.notMem_empty _,congrArg (Grip.mk · ∅ false) (given .wal)⟩

/-- Every program is in order. -/
theorem program_wellLocked (operation : Operation config) : WellLocked rank operation.program := by
  have free : ∀ index : Fin config.shardCount, Above rank (fun _ => none) (.shard index) := fun _ => nothing_below _
  have replied : ∀ {Result : Type} {program : Program config Result} (reply : Result → Reply),
      Tidy rank (fun _ => none) program → WellLocked rank (program >>= fun result => pure (reply result)) :=
    fun reply tidy => tidy.bind fun result => tidy_pure _
  cases operation with
  | set key value expiryWall reading => exact replied _ (closes_set free key value expiryWall reading).tidy
  | get key now => exact replied _ ((closes_lookupLive free key now).tidy.bind fun _ => tidy_pure _)
  | existsKey key now => exact replied _ ((closes_lookupLive free key now).tidy.bind fun _ => tidy_pure _)
  | ttl key now => exact replied _ (closes_ttl free key now).tidy
  | expiryWallTime key now => exact replied _ ((closes_lookupLive free key now).tidy.bind fun _ => tidy_pure _)
  | del key now => exact replied _ (closes_del free key now).tidy
  | expireAt key expiryWall first second => exact replied _ (closes_expireAt free key expiryWall first second).tidy
  | expire key seconds wallNow first second => exact replied _ (closes_expire free key seconds wallNow first second).tidy
  | delMany keys unlocking now => exact replied _ (delMany_ordered free keys unlocking now).2
  | existsMany keys unlocking now => exact replied _ (existsMany_ordered free keys unlocking now).2
  | durableSet io key value reading =>
    exact replied _ (tidy_durably io _ _ (closes_set engineHeld_shard key _ none reading).keeps)
  | durableDel io keys unlocking now =>
    exact replied _ (tidy_durably io _ _ (delMany_ordered engineHeld_shard keys unlocking now).1)
  | durableExpire io key seconds wallNow first second =>
    exact replied _ (tidy_durably io _ _ (closes_expireAt engineHeld_shard key _ first second).keeps)
  | fsyncRound waits stopping => exact replied _ (tidy_fsyncRound waits stopping)
  | keys pattern now =>
    refine replied _ ?_
    unfold Concurrency.keys
    split
    · exact tidy_pure _
    · exact (sweep_ordered free now).2.bind fun _ => tidy_pure _
  | exportSnapshotEntries now => exact replied _ ((sweep_ordered free now).2.bind fun _ => tidy_pure _)
  | activeExpireCycle samplesPerShard draws now => exact replied _ (tidy_activeExpireCycle free samplesPerShard draws now)
  | snapshotNow io now => exact replied _ (tidy_snapshotNow io now)

end NovaCache.Concurrency
