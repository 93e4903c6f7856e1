import NovaCache.Concurrency.Sequential
import NovaCache.Concurrency.Discipline
import NovaCache.Completion

/-! Whatever the interleaving of their steps, operations of several threads on the store and the
engine have the effects and the results of sequential operations, one after the other. -/
namespace NovaCache.Concurrency
open LockOrder (Mode)
open Sections Linearization
open Persistence (PersistenceEngine Io SnapshotIo WalOpcode)
open Locking (Lock Unlocking lockMutexesInOrder)
open Store (shardIndex)

variable {config : StoreConfig} {Result : Type} {lock : Lock config} {mode : Mode}

/-! Operations with one section. -/

theorem single_locked {body : Program config Result} (single : Single body) : Single (locked lock mode body) :=
  single_bind (show (acquire lock mode).Plain from trivial) fun _ => single.bind id fun _ => rfl

/-- Nothing is asked of the locks where only commits count. -/
def everything (config : StoreConfig) : Lock config → Option Mode := fun _ => some .exclusive

theorem single_inside {body : Program config Result} (inside : Inside (everything config) body) :
    Single (locked lock mode body) :=
  single_locked (single_plain inside.plain)

theorem single_set (key : Bytes) (value : Value) (expiryWall : Option Int) (reading : Instant) :
    Single (set key value expiryWall reading : Program config _) :=
  single_inside (inside_setLocked rfl value expiryWall reading)

theorem single_expireAt (key : Bytes) (expiryWall : Option Int) (first second : Instant) :
    Single (expireAt key expiryWall first second : Program config _) :=
  single_inside (inside_expireAtLocked rfl expiryWall first second)

theorem plain_acquireAll (locks : List (Fin config.shardCount)) : (acquireAll locks).Plain := by
  induction locks with
  | nil => trivial
  | cons index locks ih => exact ih

theorem settled_releaseAll (locks : List (Fin config.shardCount)) : Settled () (releaseAll locks) := by
  induction locks with
  | nil => rfl
  | cons index locks ih => exact ih

theorem single_lockedMany {keys : List Bytes} {unlocking : Unlocking keys config} {body : Program config Nat}
    (inside : Inside (everything config) body) : Single (lockedMany keys unlocking body) := by
  unfold lockedMany
  split
  · exact single_plain trivial
  · refine single_bind (plain_acquireAll _) fun _ => (single_plain inside.plain).bind id fun count => ?_
    exact (settled_releaseAll unlocking.order).bind rfl

theorem plain_walLocked {body : Program config Result} (plain : body.Plain) : (walLocked body).Plain :=
  plain_bind (show (acquire Lock.wal .exclusive).Plain from trivial) fun _ => plain_bind plain fun _ => trivial

theorem plain_log (io : Io) (opcode : WalOpcode) (payload : Bytes) : (log io opcode payload : Program config _).Plain := by
  refine plain_bind (plain_walLocked fun _ => trivial) fun outcome => ?_
  split
  · trivial
  · refine plain_bind (fun _ => trivial) fun engine => ?_
    split
    · exact plain_walLocked fun _ => trivial
    · trivial

theorem single_durably (io : Io) (opcode : WalOpcode) (payload : Bytes) {mutation : Program config Result}
    (single : Single mutation) : Single (durably io opcode payload mutation) := by
  refine single_locked (single_bind (plain_log io opcode payload) fun outcome => ?_)
  split
  · exact single_plain trivial
  · exact single.bind .ok fun _ => rfl

theorem settled_fsyncRound (waits : Nat) (stopping : Bool) : Settled () (fsyncRound waits stopping : Program config _) := by
  have waited : Settled () (waitFor waits : Program config _) := by
    induction waits with
    | zero => rfl
    | succ waits ih => exact ih
  refine waited.bind ?_
  cases stopping <;> rfl

/-! Operations that look again under an exclusive lock. -/

theorem locked_bind {Other : Type} (body : Program config Result) (rest : Result → Program config Other) :
    locked lock mode body >>= rest = acquire lock mode >>= fun _ =>
      body >>= fun result => commit >>= fun _ => release lock >>= fun _ => rest result := by
  simp only [locked,Code.bind_assoc]
  rfl

theorem finish_locked {Other : Type} {body : Program config Result} (plain : body.Plain)
    (rest : Result → Program config Other) (memory : Memory (Lock config) (Content config) Counters) :
    finish (locked lock mode body >>= rest) memory =
      (release lock >>= fun _ => rest (body.run memory).1,(body.run memory).2) := by
  rw [locked_bind]
  change finish (body >>= _) memory = _
  rw [finish_bind plain]
  rfl

/-- The first section decides unless what it finds has expired, and then changes nothing; the
second one decides in any case. -/
theorem carries_retried {key : Bytes} {now : Int} {probe : Program config (Option Result)} {retry : Program config Result}
    {sequential : Store config → Result × Store config} (reply : Result → Reply)
    (probed : Inside (everything config) probe) (retried : Inside (everything config) retry)
    (probes : ∀ engine store, probe.run (view (engine,store)) =
      (if Due store key now then none else some (sequential store).1,view (engine,store)))
    (kept : ∀ store, Due store key now = false → (sequential store).2 = store)
    (retries : ∀ engine store, retry.run (view (engine,store)) = ((sequential store).1,view (engine,(sequential store).2))) :
    Carries view .engine 2
      ((locked lock .shared probe >>= orRetry (locked lock .exclusive retry)) >>= fun result => pure (reply result))
      (.atomic fun system : System config => (reply (sequential system.2).1,system.1,(sequential system.2).2)) := by
  refine ⟨nofun,.inr fun system => ?_⟩
  obtain ⟨engine,store⟩ := system
  rw [Code.bind_assoc,finish_locked probed.plain,probes]
  cases due : Due store key now with
  | false =>
    refine .inr ⟨_,_,_,_,rfl,?_,carries_settled ?_ 1⟩
    · exact congrArg (fun store => view (engine,store)) (kept store due).symm
    · exact rfl
  | true =>
    refine .inl ⟨rfl,?_⟩
    have single : Single (release lock >>= fun _ => locked lock .exclusive retry >>= fun result => pure (reply result)) :=
      single_bind (show (release lock).Plain from trivial) fun _ => (single_inside retried).bind reply fun _ => rfl
    refine single.carries (fun system => ?_) nofun
    obtain ⟨engine,store⟩ := system
    change (locked lock .exclusive retry >>= fun result => pure (reply result)).run (view (engine,store)) = _
    rw [run_bind,run_locked,retries]
    rfl

theorem carries_lookup {Answer : Type} (key : Bytes) (now : Int) (answer : Option Entry → Answer) (reply : Answer → Reply) :
    Carries view .engine 2
      ((lookupLive key now >>= fun found => pure (answer found)) >>= fun result => pure (reply result))
      (.atomic fun system : System config =>
        (reply (answer (system.2.lookupLive key now).1),system.1,(system.2.lookupLive key now).2)) := by
  rw [Code.bind_assoc]
  refine carries_retried (fun found => reply (answer found)) (inside_lookupShared (Option.some_ne_none _) now)
    (inside_findLocked rfl now) (fun engine store => run_lookupShared engine store key now)
    (fun store => lookupLive_kept store key now) fun engine store => ?_
  rw [run_findLocked,findLocked_eq]

theorem carries_ttl (key : Bytes) (now : Int) :
    Carries view .engine 2 (ttl key now >>= fun seconds => pure (Reply.seconds seconds))
      (.atomic fun system : System config => (Reply.seconds (system.2.ttl key now).1,system.1,(system.2.ttl key now).2)) :=
  carries_retried .seconds (inside_ttlShared (Option.some_ne_none _) now) (inside_ttlLocked rfl now)
    (fun engine store => run_ttlShared engine store key now) (fun store => ttl_kept store key now)
    fun engine store => run_ttlLocked engine store key now

/-! Operations with a section for each shard. -/

section rounds
variable {Answer : Type} {depth : Nat} {rest : Answer → Program config Result} {next : Answer → Script (System config) Result}

theorem carries_locked {body : Program config Answer} {reserves : Bool} (different : lock ≠ .engine) (plain : body.Plain)
    {action : System config → Answer × System config}
    (alone : ∀ system, body.run (view system) = ((action system).1,view (action system).2))
    (retains : reserves = true → Retains .engine (locked lock mode body >>= rest))
    (continues : ∀ answer, Carries view .engine depth (rest answer) (next answer)) :
    Carries view .engine (depth + 1) (locked lock mode body >>= rest) (.act reserves action next) := by
  refine ⟨retains,.inr fun system => .inr ⟨_,reserves,action,next,rfl,?_⟩⟩
  rw [finish_locked plain,alone]
  exact ⟨rfl,(continues _).release different⟩

/-- The lock that is taken and given back is another one. -/
theorem retains_locked {held : Lock config → Option Mode} {body : Program config Answer} (different : lock ≠ .engine)
    (inside : Inside held body) (owes : ∀ answer, Owes .engine (rest answer)) :
    Retains .engine (locked lock mode body >>= rest) := by
  rw [locked_bind]
  refine ⟨different,?_⟩
  refine inside.retains fun answer => ?_
  exact Or.inr (owes answer)

theorem owes_locked {held : Lock config → Option Mode} {body : Program config Answer} (different : lock ≠ .engine)
    (inside : Inside held body) (owes : ∀ answer, Owes .engine (rest answer)) :
    Owes .engine (locked lock mode body >>= rest) := by
  rw [locked_bind]
  refine ⟨different,?_⟩
  refine inside.owes fun answer => ?_
  exact Or.inr (owes answer)

end rounds

theorem shard_ne_engine (index : Fin config.shardCount) : Lock.shard index ≠ .engine := nofun

theorem wal_ne_engine : (Lock.wal : Lock config) ≠ .engine := nofun

theorem inside_sweepShard (index : Fin config.shardCount) (now : Int) : Inside (everything config) (do
    let shard ← readShard index
    sweepLocked index now shard.entries []) :=
  (inside_read rfl).bind fun _ => inside_sweepLocked rfl now _ _

theorem owes_sweepFrom {rest : List (Bytes × Entry) → Program config Result} (owes : ∀ listed, Owes .engine (rest listed))
    (now : Int) (indices : List (Fin config.shardCount)) (listed : List (Bytes × Entry)) :
    Owes .engine (sweepFrom now indices listed >>= rest) := by
  induction indices generalizing listed with
  | nil => exact owes listed
  | cons index indices ih =>
    rw [sweepFrom,Code.bind_assoc]
    exact owes_locked (shard_ne_engine index) (inside_sweepShard index now) fun live => ih _

theorem carries_sweepFrom (reserves : Bool) {depth : Nat} {rest : List (Bytes × Entry) → Program config Result}
    {next : List (Bytes × Entry) → Script (System config) Result}
    (owes : reserves = true → ∀ listed, Owes .engine (rest listed))
    (continues : ∀ listed, Carries view .engine depth (rest listed) (next listed)) (now : Int)
    (indices : List (Fin config.shardCount)) (listed : List (Bytes × Entry)) :
    Carries view .engine (depth + indices.length) (sweepFrom now indices listed >>= rest)
      ((sweepScript reserves now indices listed).behind.append next) := by
  induction indices generalizing listed with
  | nil => exact continues listed
  | cons index indices ih =>
    rw [sweepFrom,Code.bind_assoc]
    refine carries_locked (shard_ne_engine index) (inside_sweepShard index now).plain (fun system => ?_) (fun reserved => ?_)
      fun live => ih _
    · rw [← run_locked (.shard index) .exclusive]
      exact run_sweepShard system.1 system.2 index now
    · refine retains_locked (shard_ne_engine index) (inside_sweepShard index now) fun live => ?_
      exact owes_sweepFrom (owes reserved) now indices _

theorem carries_sampleFrom (samplesPerShard : Nat) (draws : Nat → Nat → Nat) (now : Int)
    (indices : List (Fin config.shardCount)) (expired : Nat) :
    Carries view .engine indices.length (sampleFrom samplesPerShard draws now indices expired)
      (sampleScript samplesPerShard draws now indices expired).behind := by
  induction indices generalizing expired with
  | nil => exact carries_done _ 0
  | cons index indices ih =>
    have holds : everything config (.shard index) = some .exclusive := rfl
    refine carries_locked (shard_ne_engine index) (show Inside (everything config) _ from ?_).plain (fun system => ?_)
      nofun fun outcome => ?_
    · refine (inside_read holds).bind fun shard => ?_
      split
      · trivial
      · exact inside_sampleLocked holds _ now _ expired
    · obtain ⟨count,next,round,ran⟩ :=
        run_sampleShard system.1 system.2 samplesPerShard index (draws index.val) now expired
      rw [sampleShard,run_locked] at ran
      have after : sampled system.2 (Store.sampleRound samplesPerShard index (draws index.val) now (expired,system.2)) =
          (.ok count,next) := by rw [round]; rfl
      exact ran.trans (congrArg (fun after => (after.1,view (system.1,after.2))) after.symm)
    · cases outcome with
      | error failure => exact carries_done _ _
      | ok expired => exact ih expired

/-- Where the guard of the engine is left. -/
def leaveEngine (result : Except Failure Unit) : Program config (Except Failure Unit) := do
  commit
  release .engine
  return result

theorem owes_leaveEngine (result : Except Failure Unit) : Owes .engine (leaveEngine result : Program config _) :=
  Or.inl rfl

theorem retains_leaveEngine (result : Except Failure Unit) : Retains .engine (leaveEngine result : Program config _) :=
  owes_leaveEngine result

theorem plain_truncateAfter (io : SnapshotIo) (offset : UInt64) : (truncateAfter io offset : Program config _).Plain :=
  plain_walLocked fun _ => trivial

theorem retains_truncateAfter (io : SnapshotIo) (offset : UInt64) :
    Retains .engine (truncateAfter io offset >>= leaveEngine : Program config _) :=
  ⟨wal_ne_engine,fun _ => ⟨wal_ne_engine,owes_leaveEngine _⟩⟩

theorem carries_truncateAfter (io : SnapshotIo) (offset : UInt64) :
    Carries view .engine 1 (truncateAfter io offset >>= leaveEngine : Program config _)
      (truncateScript io (.ok offset)) := by
  have single : Single (truncateAfter io offset >>= leaveEngine : Program config _) :=
    (single_plain (plain_truncateAfter io offset)).bind id fun result => rfl
  refine single.carries (fun system => ?_) fun _ => retains_truncateAfter io offset
  rw [run_bind,truncateAfter,run_walLocked]
  exact congrArg ((emptied io offset system.1).1,·) (view_engine system.1 _ system.2)

theorem owes_truncateAfter (io : SnapshotIo) (offset : UInt64) :
    Owes .engine (truncateAfter io offset >>= leaveEngine : Program config _) :=
  ⟨wal_ne_engine,fun _ => Or.inr (owes_leaveEngine _)⟩

theorem retains_rotate (io : SnapshotIo) (entries : List PersistedEntry) :
    Retains .engine (rotate io entries >>= leaveEngine : Program config _) := by
  have installs : ∀ offset engine outcome, Retains .engine (install io offset engine outcome >>= leaveEngine : Program config _) := by
    intro offset engine outcome
    rcases outcome with ⟨failure | ⟨⟩,snapshot⟩
    · exact retains_leaveEngine _
    · exact owes_truncateAfter io offset
  exact ⟨wal_ne_engine,fun first => ⟨wal_ne_engine,fun engine => installs _ _ _⟩⟩

theorem carries_rotate (io : SnapshotIo) (entries : List PersistedEntry) :
    Carries view .engine 2 (rotate io entries >>= leaveEngine : Program config _) (installScript io entries) := by
  refine ⟨fun _ => retains_rotate io entries,.inr fun system => .inr ⟨_,true,_,_,rfl,?_⟩⟩
  obtain ⟨engine,store⟩ := system
  generalize written : Persistence.SnapshotStore.write io.snapshot engine.snapshot engine.wal.lastOffset entries = outcome
  have begun : finish (rotate io entries >>= leaveEngine) (view (engine,store)) =
      finish (install io engine.wal.lastOffset engine outcome >>= leaveEngine) (view (engine,store)) := by
    rw [← written]
    rfl
  rw [begun]
  rcases outcome with ⟨failure | ⟨⟩,snapshot⟩
  · have left : installed io entries engine = (.error failure,engine) := by
      unfold installed
      rw [written]
    simp only [left]
    exact ⟨rfl,carries_settled (show Settled (Except.error failure) (release .engine >>= fun _ => pure _) from rfl) 1⟩
  · have placed : installed io entries engine = (.ok engine.wal.lastOffset,{engine with snapshot := snapshot}) := by
      unfold installed
      rw [written]
    simp only [placed]
    exact ⟨view_engine engine _ store,carries_truncateAfter io _⟩

/-- The engine stays locked from the first action to the last. -/
theorem carries_snapshotNow (io : SnapshotIo) (now : Int) :
    ∃ depth, Carries view .engine depth (snapshotNow io now : Program config _) (snapshotScript io now) := by
  have plain : (syncUnlessNone io.sync : Program config _).Plain := by
    refine plain_bind (fun _ => trivial) fun engine => ?_
    split
    · exact plain_walLocked fun _ => trivial
    · trivial
  have whole : (snapshotNow io now : Program config _) = acquire .engine .exclusive >>= fun _ =>
      syncUnlessNone io.sync >>= fun synced => commit >>= fun _ => saveSnapshot io now synced >>= leaveEngine := by
    simp only [snapshotNow,locked,Code.bind_assoc]
    rfl
  have saves : ∀ synced, Carries view .engine (2 + (List.finRange config.shardCount).length)
      (saveSnapshot io now synced >>= leaveEngine) (afterSync io now synced : Script (System config) _) := by
    intro synced
    cases synced with
    | error failure => exact carries_settled (show Settled (.error failure) (leaveEngine (.error failure)) from rfl) _
    | ok =>
      simp only [saveSnapshot,exportSnapshotEntries,Code.bind_assoc]
      exact carries_sweepFrom true (fun _ listed => (retains_rotate io (persisted listed)).owes)
        (fun listed => carries_rotate io (persisted listed)) now _ []
  refine ⟨2 + (List.finRange config.shardCount).length + 1,(absurd · Bool.false_ne_true),.inr fun system => .inr ⟨_,false,_,_,rfl,?_⟩⟩
  rw [whole]
  change (finish (syncUnlessNone io.sync >>= fun synced => commit >>= fun _ => saveSnapshot io now synced >>= leaveEngine)
    (view system)).2 = _ ∧ Carries view .engine _ (finish (syncUnlessNone io.sync >>= fun synced => commit >>= fun _ =>
      saveSnapshot io now synced >>= leaveEngine) (view system)).1 _
  rw [finish_bind plain,run_syncUnlessNone]
  exact ⟨rfl,saves _⟩

/-- The sections of the program have the effects of the actions. -/
theorem program_carries (operation : Operation config) : ∃ depth, Carries view .engine depth operation.program operation.script := by
  have single : Single operation.program → operation.script = .atomic operation.apply →
      ∃ depth, Carries view .engine depth operation.program operation.script := by
    intro single atomic
    rw [atomic]
    exact ⟨1,single.carries (run_program operation) (absurd · Bool.false_ne_true)⟩
  have replied : ∀ {Result : Type} {program : Program config Result} (reply : Result → Reply),
      Single program → Single (program >>= fun result => pure (reply result)) :=
    fun reply single => single.bind reply fun _ => rfl
  cases operation with
  | get key now => exact ⟨2,carries_lookup key now _ _⟩
  | existsKey key now => exact ⟨2,carries_lookup key now _ _⟩
  | expiryWallTime key now => exact ⟨2,carries_lookup key now (·.bind Entry.expiresAtWall) _⟩
  | ttl key now => exact ⟨2,carries_ttl key now⟩
  | set key value expiryWall reading => exact single (replied _ (single_set key value expiryWall reading)) rfl
  | del key now => exact single (replied _ (single_inside (inside_delLocked rfl now))) rfl
  | expireAt key expiryWall first second => exact single (replied _ (single_expireAt key expiryWall first second)) rfl
  | expire key seconds wallNow first second =>
    refine single (replied _ ?_) rfl
    unfold Concurrency.expire
    split <;> exact single_expireAt _ _ _ _
  | delMany keys unlocking now =>
    exact single (replied _ (single_lockedMany (inside_delManyLocked (fun _ _ => rfl) now 0))) rfl
  | existsMany keys unlocking now =>
    exact single (replied _ (single_lockedMany (inside_existsManyLocked (fun _ _ => rfl) now 0))) rfl
  | durableSet io key value reading => exact single (replied _ (single_durably io _ _ (single_set key _ none reading))) rfl
  | durableDel io keys unlocking now =>
    refine single (replied _ (single_durably io _ _ (single_lockedMany ?_))) rfl
    exact inside_delManyLocked (fun _ _ => rfl) now 0
  | durableExpire io key seconds wallNow first second =>
    exact single (replied _ (single_durably io _ _ (single_expireAt key _ first second))) rfl
  | fsyncRound waits stopping =>
    have settled : Settled Reply.done (Operation.fsyncRound waits stopping : Operation config).program :=
      (settled_fsyncRound waits stopping).bind rfl
    exact ⟨0,carries_settled settled 0⟩
  | keys pattern now =>
    by_cases other : pattern ≠ [0x2A]
    · refine ⟨0,?_⟩
      simp only [Operation.program,Concurrency.keys,Operation.script,Operation.steps,if_pos other]
      exact carries_done _ 0
    · refine ⟨0 + (List.finRange config.shardCount).length,?_⟩
      simp only [Operation.program,Concurrency.keys,Operation.script,Operation.steps,if_neg other,Code.bind_assoc]
      rw [Script.behind_map,← Script.append_done]
      exact carries_sweepFrom false (absurd · Bool.false_ne_true) (fun listed => carries_done _ 0) now _ []
  | exportSnapshotEntries now =>
    refine ⟨0 + (List.finRange config.shardCount).length,?_⟩
    simp only [Operation.program,Concurrency.exportSnapshotEntries,Operation.script,Operation.steps,Code.bind_assoc]
    rw [Script.behind_map,← Script.append_done]
    exact carries_sweepFrom false (absurd · Bool.false_ne_true) (fun listed => carries_done _ 0) now _ []
  | activeExpireCycle samplesPerShard draws now =>
    by_cases none : samplesPerShard = 0
    · refine ⟨0,?_⟩
      simp only [Operation.program,Concurrency.activeExpireCycle,Operation.script,Operation.steps,if_pos none]
      exact carries_done _ 0
    · refine ⟨(List.finRange config.shardCount).length,?_⟩
      simp only [Operation.program,Concurrency.activeExpireCycle,Operation.script,Operation.steps,if_neg none,
        Script.behind_map]
      exact (carries_sampleFrom samplesPerShard draws now _ 0).map _
  | snapshotNow io now =>
    obtain ⟨depth,carries⟩ := carries_snapshotNow io now
    exact ⟨depth,carries.map _⟩

section threads
variable {Thread : Type} [Fintype Thread] [DecidableEq Thread]

/-- Every operation takes effect between its call and its return, in one action or, where it goes
over all shards, in one for each; without other threads the actions are the sequential operation.
Between the actions of a snapshot nobody changes the engine. When all have returned, the shards,
the files and the counters are as the actions leave them. -/
theorem operations_linearizable (system : System config) (history : List (Event Thread (Operation config) Reply))
    (state : State Thread (Operation config) (Lock config) (Content config) Counters Reply)
    (run : Simulation.Run (Step Operation.program) (.start (view system)) history state) :
    (∃ object, Simulation.Run (Object.Step Operation.script Prod.fst) (.start system) history object ∧
      (state.Quiet → state.memory = view object.memory)) ∧
    ∀ (operation : Operation config) (alone : System config), operation.script.run alone = operation.apply alone := by
  obtain ⟨object,serial,shown,related,tracks⟩ := run_scripted program_wellLocked program_carries run
  exact ⟨⟨object,shown,fun quiet => (related.quiet quiet).1.trans tracks.memory⟩,script_run⟩

def oneShard : StoreConfig := ⟨1,Nat.one_pos,fun _ => 0,64⟩

def emptySystem : System oneShard := (.new .none none [],.empty)

def setting : Operation oneShard := .set [0x6B] (.string [0x76]) none ⟨0,0⟩

def getting : Operation oneShard := .get [0x6B] 0

-- The second call is made before the first has begun and reads what the first has written.
theorem overlapping_linearizable : ∃ state object,
    Simulation.Run (Step Operation.program) (.start (view emptySystem))
      [.call false setting,.call true getting,.ret false setting .done,.ret true getting (.value (some (.string [0x76])))]
      state ∧
    Simulation.Run (Object.Step Operation.script Prod.fst) (.start emptySystem)
      [.call false setting,.call true getting,.ret false setting .done,.ret true getting (.value (some (.string [0x76])))]
      object ∧ state.memory = view object.memory := by
  have run : ∃ state, Simulation.Run (Step Operation.program)
      (.start (view emptySystem)) [.call false setting,.call true getting,.ret false setting .done,
        .ret true getting (.value (some (.string [0x76])))] state ∧ state.Quiet := by
    apply Exists.intro
    constructor
    · apply Simulation.Run.go (Step.call rfl)
      apply Simulation.Run.go (Step.call rfl)
      apply run_advances (List.replicate 6 false) rfl
      apply Simulation.Run.go (Step.ret rfl)
      apply run_advances (List.replicate 4 true) rfl
      apply Simulation.Run.go (Step.ret rfl)
      apply Simulation.Run.rest
    · intro thread
      cases thread <;> rfl
  obtain ⟨state,run,quiet⟩ := run
  obtain ⟨⟨object,shown,same⟩,_⟩ := operations_linearizable emptySystem _ _ run
  exact ⟨state,object,run,shown,same quiet⟩

/-- No thread is about to access the entries of a shard, or the engine with its files, while
another one is about to write them. -/
theorem programs_race_free (system : System config) (history : List (Event Thread (Operation config) Reply))
    (state : State Thread (Operation config) (Lock config) (Content config) Counters Reply)
    (run : Simulation.Run (Step Operation.program) (.start (view system)) history state) (one two : Thread)
    (different : one ≠ two) (lock : Lock config) (mode : Mode) :
    ¬ (Accesses state one lock .exclusive ∧ Accesses state two lock mode) := by
  rintro ⟨writes,accesses⟩
  obtain ⟨serial,_,related⟩ := run_serial program_wellLocked run
  exact related.race_free different writes accesses

-- Both calls are under way and the first is about to write.
theorem overlapping_race_free : ∃ state,
    Simulation.Run (Step Operation.program) (.start (view emptySystem)) [.call false setting,.call true getting] state ∧
    Accesses state false (.shard ⟨0,Nat.one_pos⟩) .exclusive ∧ ¬ Accesses state true (.shard ⟨0,Nat.one_pos⟩) .shared := by
  have run : ∃ state, Simulation.Run (Step Operation.program) (.start (view emptySystem))
      [.call false setting,.call true getting] state ∧ Accesses state false (.shard ⟨0,Nat.one_pos⟩) .exclusive := by
    apply Exists.intro
    constructor
    · apply Simulation.Run.go (Step.call rfl)
      apply Simulation.Run.go (Step.call rfl)
      apply run_advances [false,false] rfl
      apply Simulation.Run.rest
    · exact .write rfl
  obtain ⟨state,run,writes⟩ := run
  exact ⟨state,run,writes,fun reads => programs_race_free emptySystem _ _ run false true nofun _ _ ⟨writes,reads⟩⟩

/-- From any moment on all calls return once no new ones are made, in whatever order the threads
go on: while a call is under way one of them can, and every call is done after finitely many
of its own steps. -/
theorem programs_return_always (system : System config) (history : List (Event Thread (Operation config) Reply))
    (state : State Thread (Operation config) (Lock config) (Content config) Counters Reply)
    (run : Simulation.Run (Step Operation.program) (.start (view system)) history state) :
    Finishes Operation.program state := by
  obtain ⟨serial,_,related⟩ := run_serial program_wellLocked run
  exact related.finishes program_wellLocked

theorem overlapping_return_always : ∃ state,
    Simulation.Run (Step Operation.program) (.start (view emptySystem)) [.call false setting,.call true getting] state ∧
    Finishes Operation.program state := by
  have run : ∃ state, Simulation.Run (Step Operation.program) (.start (view emptySystem))
      [.call false setting,.call true getting] state := by
    apply Exists.intro
    apply Simulation.Run.go (Step.call rfl)
    apply Simulation.Run.go (Step.call rfl)
    apply run_advances [false,false] rfl
    apply Simulation.Run.rest
  obtain ⟨state,run⟩ := run
  exact ⟨state,run,programs_return_always emptySystem _ _ run⟩

end threads

end NovaCache.Concurrency
