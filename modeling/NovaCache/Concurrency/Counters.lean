import NovaCache.Concurrency.Linearizable
import NovaCache.Persistence.WalRecovery
import NovaCache.Store.Accounting

/-! The memory counter while several threads are at work. It is not locked with the entries it
counts, so it may be off while calls are under way; when there are none it is right. -/
namespace NovaCache.Concurrency
open Sections Linearization
open Persistence (PersistenceEngine SnapshotIo RecoveryClock WalRecord applyRecord importEntries replayRecords writerAt)
open Locking (Lock)

variable {config : StoreConfig} {store next : Store config}

theorem accounted_call (accounted : store.Accounted) (call : StoreCall) (returned : store.call call = .ok next) :
    next.Accounted := by
  obtain ⟨found,same,edited⟩ := Store.call_edited store accounted.placed call
  obtain rfl := Except.ok.inj (returned.symm.trans same)
  exact (accounted.edited edited).1

/-! What is restored at the start. -/

theorem accounted_importEntries (clock : RecoveryClock) (entries : List PersistedEntry) (index : Nat)
    (accounted : store.Accounted) : (importEntries clock index entries store).Accounted := by
  induction entries generalizing index store with
  | nil => exact accounted
  | cons entry entries ih => exact ih (index + 1) (accounted_call accounted (.importSnapshotEntry entry (clock index).1) rfl)

theorem accounted_applyRecord (accounted : store.Accounted) {record : WalRecord} {first second : Instant}
    (applied : applyRecord store record first second = .ok next) : next.Accounted := by
  cases Persistence.applyRecord_applied applied with
  | set key value expiry =>
    exact accounted_call accounted (.op (.setExpiring key (.string value) (expiry.map Persistence.fromUnixMs) first)) rfl
  | del keys => exact accounted_call accounted (.op (.delMany keys first.now)) rfl
  | expire key millis =>
    exact accounted_call accounted (.op (.expireAt key (some (Persistence.fromUnixMs millis)) first second)) rfl

theorem accounted_replayRecords (clock : RecoveryClock) (snapshotOffset : UInt64) (records : List WalRecord) (index : Nat)
    (accounted : store.Accounted) (replayed : replayRecords clock snapshotOffset index records store = .ok next) :
    next.Accounted := by
  induction records generalizing index store with
  | nil =>
    cases replayed
    exact accounted
  | cons record records ih =>
    rw [replayRecords] at replayed
    split at replayed
    · exact ih index accounted replayed
    · obtain ⟨middle,applied,replayed⟩ := Persistence.bind_success _ _ _ replayed
      exact ih (index + 1) (accounted_applyRecord accounted applied) replayed

theorem accounted_recoverInto {found engine : PersistenceEngine} {clock : RecoveryClock} (accounted : store.Accounted)
    (recovered : found.recoverInto store clock = .ok (engine,next)) : next.Accounted := by
  unfold PersistenceEngine.recoverInto at recovered
  obtain ⟨⟨records,wal⟩,_,recovered⟩ := Persistence.bind_success _ _ _ recovered
  obtain ⟨middle,replayed,recovered⟩ := Persistence.bind_success _ _ _ recovered
  cases recovered
  refine accounted_replayRecords clock _ records _ ?_ replayed
  exact accounted_importEntries clock _ 0 (accounted_call accounted .clear rfl)

/-! What the actions of the operations keep. -/

theorem accounted_sweepShard (accounted : store.Accounted) (index : Fin config.shardCount) (now : Int) :
    (store.sweepShard index now).2.Accounted := by
  have edited := Store.sweepStep_edited index now (store.shards index).entries (store.shards index).nodupKeys ([],store)
    fun _ member => member
  exact (accounted.edited edited).1

theorem accounted_sampleRound (accounted : store.Accounted) (samplesPerShard : Nat) (index : Fin config.shardCount)
    (draws : Nat → Nat) (now : Int) (expired : Nat) :
    (sampled store (Store.sampleRound samplesPerShard index draws now (expired,store))).2.Accounted := by
  cases round : Store.sampleRound samplesPerShard index draws now (expired,store) with
  | error => exact accounted
  | ok last =>
    obtain ⟨count,last⟩ := last
    rw [Store.sampleRound] at round
    split at round
    · cases round
      exact accounted
    · exact (accounted.edited (Store.sampleShard_edited index draws now _ expired store _ round)).1

theorem keeps_sweepScript (reserves : Bool) (now : Int) (indices : List (Fin config.shardCount))
    (listed : List (Bytes × Entry)) : (sweepScript reserves now indices listed).Keeps Store.Accounted := by
  induction indices generalizing listed with
  | nil => trivial
  | cons index rest ih => exact fun store accounted => ⟨accounted_sweepShard accounted index now,ih _⟩

theorem keeps_sampleScript (samplesPerShard : Nat) (draws : Nat → Nat → Nat) (now : Int)
    (indices : List (Fin config.shardCount)) (expired : Nat) :
    (sampleScript samplesPerShard draws now indices expired).Keeps Store.Accounted := by
  induction indices generalizing expired with
  | nil => trivial
  | cons index rest ih =>
    intro store accounted
    refine ⟨accounted_sampleRound accounted samplesPerShard index (draws index.val) now expired,?_⟩
    cases (sampled store (Store.sampleRound samplesPerShard index (draws index.val) now (expired,store))).1 with
    | error => trivial
    | ok expired => exact ih expired

theorem keeps_truncateScript (io : SnapshotIo) (offset : Except Failure UInt64) :
    (truncateScript io offset : Script (System config) _).Keeps fun system => system.2.Accounted := by
  cases offset with
  | error => trivial
  | ok => exact fun system accounted => ⟨accounted,trivial⟩

/-- Behind the sync there are the walk and two actions on the files. -/
theorem keeps_afterSync (io : SnapshotIo) (now : Int) (synced : Except Failure Unit) :
    (afterSync io now synced : Script (System config) _).Keeps fun system => system.2.Accounted := by
  cases synced with
  | error => trivial
  | ok =>
    refine (keeps_sweepScript true now _ []).behind.append fun listed system accounted => ?_
    exact ⟨accounted,keeps_truncateScript io _⟩

theorem script_keeps (operation : Operation config) : operation.script.Keeps fun system => system.2.Accounted := by
  have calls : ∀ {action : Store config → Reply × Store config} (call : StoreCall),
      (∀ store : Store config, store.call call = .ok (action store).2) →
        ((Script.atomic action).behind : Script (System config) Reply).Keeps fun system => system.2.Accounted := by
    intro action call same
    exact (Script.keeps_atomic fun store accounted => accounted_call accounted call (same store)).behind
  -- If the log fails the store stays as it is.
  have logs : ∀ {action : System config → Reply × System config} (call : StoreCall),
      (∀ system : System config, (action system).2.2 = system.2 ∨ system.2.call call = .ok (action system).2.2) →
        (Script.atomic action).Keeps fun system => system.2.Accounted := by
    intro action call same
    refine Script.keeps_atomic fun system accounted => ?_
    rcases same system with failed | called
    · rw [failed]
      exact accounted
    · exact accounted_call accounted call called
  cases operation with
  | set key value expiryWall reading => exact calls (.op (.setExpiring key value expiryWall reading)) fun _ => rfl
  | get key now => exact calls (.op (.get key now)) fun _ => rfl
  | existsKey key now => exact calls (.op (.exists_ key now)) fun _ => rfl
  | ttl key now => exact calls (.op (.ttl key now)) fun _ => rfl
  | expiryWallTime key now => exact calls (.op (.expiryWallTime key now)) fun _ => rfl
  | del key now => exact calls (.op (.del key now)) fun _ => rfl
  | expireAt key expiryWall first second => exact calls (.op (.expireAt key expiryWall first second)) fun _ => rfl
  | expire key ttl wallNow first second => exact calls (.op (.expire key ttl wallNow first second)) fun _ => rfl
  | delMany names _ now => exact calls (.op (.delMany names now)) fun _ => rfl
  | existsMany names _ now => exact calls (.op (.existsMany names now)) fun _ => rfl
  | durableSet io key value reading =>
    refine logs (.op (.set key (.string value) reading)) fun system => ?_
    simp only [Operation.apply,PersistenceEngine.durableSet]
    rcases system.1.log io .set _ with ⟨failure | ⟨⟩,engine⟩
    · exact .inl rfl
    · exact .inr rfl
  | durableDel io names _ now =>
    refine logs (.op (.delMany names now)) fun system => ?_
    simp only [Operation.apply,PersistenceEngine.durableDel]
    rcases system.1.log io .del _ with ⟨failure | ⟨⟩,engine⟩
    · exact .inl rfl
    · exact .inr rfl
  | durableExpire io key ttl wallNow first second =>
    refine logs (.op (.expireAt key (some (Persistence.fromUnixMs (PersistenceEngine.expiryMs ttl wallNow))) first second))
      fun system => ?_
    simp only [Operation.apply,PersistenceEngine.durableExpire]
    rcases system.1.log io .expire _ with ⟨failure | ⟨⟩,engine⟩
    · exact .inl rfl
    · exact .inr rfl
  | fsyncRound => trivial
  | keys pattern now =>
    change (Script.behind (if _ then _ else _)).Keeps _
    split
    · trivial
    · exact ((keeps_sweepScript false now _ []).map _).behind
  | exportSnapshotEntries now => exact ((keeps_sweepScript false now _ []).map _).behind
  | activeExpireCycle samplesPerShard draws now =>
    change (Script.behind (if _ then _ else _)).Keeps _
    split
    · trivial
    · exact ((keeps_sampleScript samplesPerShard draws now _ 0).map _).behind
  | snapshotNow io now =>
    have keeps : (snapshotScript io now : Script (System config) _).Keeps fun system => system.2.Accounted :=
      fun system accounted => ⟨accounted,keeps_afterSync io now _⟩
    exact keeps.map _

section threads
variable {Thread : Type} [DecidableEq Thread] [Fintype Thread]

/-- Whatever has been recovered and whatever the threads have done since, when no call is under
way the counter is the sum of the sizes of the entries, each of which is the estimate for its
key and value, and every key is there once, in its own shard. -/
theorem memory_settled {found engine : PersistenceEngine} {clock : RecoveryClock}
    (recovered : found.recoverInto (Store.empty : Store config) clock = .ok (engine,store))
    (history : List (Event Thread (Operation config) Reply))
    (state : State Thread (Operation config) (Lock config) (Content config) Counters Reply)
    (run : Simulation.Run (Step Operation.program) (.start (view (engine,store))) history state) (quiet : state.Quiet) :
    ∃ engine store, state.memory = view (engine,store) ∧ store.Accounted := by
  obtain ⟨object,serial,shown,related,tracks⟩ := run_scripted program_wellLocked program_carries run
  have accounted := run_keeps script_keeps shown (accounted_recoverInto Store.accounted_empty recovered)
  exact ⟨object.memory.1,object.memory.2,(related.quiet quiet).1.trans tracks.memory,accounted.1⟩

-- Two threads set the same key at once.
theorem overlapping_settled : ∃ state engine store,
    Simulation.Run (Step Operation.program) (.start (view (⟨.none,none,writerAt 0 [] 0⟩,(Store.empty : Store oneShard))))
      [.call false setting,.call true setting,.ret false setting .done,.ret true setting .done] state ∧
    state.memory = view (engine,store) ∧ store.Accounted := by
  have run : ∃ state, Simulation.Run (Step Operation.program)
      (.start (view (⟨.none,none,writerAt 0 [] 0⟩,(Store.empty : Store oneShard))))
      [.call false setting,.call true setting,.ret false setting .done,.ret true setting .done] state ∧ state.Quiet := by
    apply Exists.intro
    constructor
    · apply Simulation.Run.go (Step.call rfl)
      apply Simulation.Run.go (Step.call rfl)
      apply run_advances (List.replicate 6 false) rfl
      apply Simulation.Run.go (Step.ret rfl)
      apply run_advances (List.replicate 7 true) rfl
      apply Simulation.Run.go (Step.ret rfl)
      apply Simulation.Run.rest
    · intro thread
      cases thread <;> rfl
  obtain ⟨state,run,quiet⟩ := run
  have recovered : (PersistenceEngine.new .none none []).recoverInto (Store.empty : Store oneShard)
      (fun _ => (⟨0,0⟩,⟨0,0⟩)) = .ok (⟨.none,none,writerAt 0 [] 0⟩,Store.empty) := rfl
  obtain ⟨engine,store,same,accounted⟩ := memory_settled recovered _ state run quiet
  exact ⟨state,engine,store,run,same,accounted⟩

end threads

end NovaCache.Concurrency
