import NovaCache.LockOrder
import NovaCache.Persistence.Engine
import Mathlib.Data.List.Destutter

/-! The mutexes of the engine, the log and the shards. Each operation is the list of what it
locks and unlocks; what an operation finds in the store or the log decides only which of its
sections it enters. -/
namespace NovaCache.Locking
open LockOrder Persistence Store
variable {config : StoreConfig}

inductive Lock (config : StoreConfig)
  | engine
  | wal
  | shard (index : Fin config.shardCount)
  deriving DecidableEq

abbrev Actions (config : StoreConfig) := List (Action (Lock config))

def mutexFor (key : Bytes) : Lock config := .shard (shardIndex config key)

/-- A shared section, and an exclusive one if the entry found in it is expired. -/
def readEntry (key : Bytes) (expired : Bool) : Actions config :=
  guarded (mutexFor key) .shared [] ++ if expired then guarded (mutexFor key) .exclusive [] else []

def get (key : Bytes) (expired : Bool) : Actions config := readEntry key expired
def existsKey (key : Bytes) (expired : Bool) : Actions config := readEntry key expired
def ttl (key : Bytes) (expired : Bool) : Actions config := readEntry key expired
def expiryWallTime (key : Bytes) (expired : Bool) : Actions config := readEntry key expired

def writeEntry (key : Bytes) : Actions config := guarded (mutexFor key) .exclusive []

def set (key : Bytes) : Actions config := writeEntry key
def del (key : Bytes) : Actions config := writeEntry key
def expireAt (key : Bytes) : Actions config := writeEntry key
def expire (key : Bytes) : Actions config := expireAt key

/-- The mutexes are sorted by their addresses, which ascend with the index of the shard, and
`std::unique` drops equal neighbours. -/
def lockMutexesInOrder (mutexes : List (Fin config.shardCount)) : List (Fin config.shardCount) :=
  (mutexes.mergeSort fun one two => one ≤ two).destutter (· ≠ ·)

/-- The order in which the destructor of the vector unlocks is not specified. -/
structure Unlocking (keys : List Bytes) (config : StoreConfig) where
  order : List (Fin config.shardCount)
  all : order.Perm (lockMutexesInOrder (keys.map (shardIndex config)))

def lockMany (keys : List Bytes) (unlocking : Unlocking keys config) : Actions config :=
  if keys = [] then []
  else ((lockMutexesInOrder (keys.map (shardIndex config))).map Lock.shard).map (.acquire · .exclusive) ++
    (unlocking.order.map Lock.shard).map .release

def delMany (keys : List Bytes) (unlocking : Unlocking keys config) : Actions config := lockMany keys unlocking
def existsMany (keys : List Bytes) (unlocking : Unlocking keys config) : Actions config := lockMany keys unlocking

/-- One shard after the other, never two at a time. -/
def everyShard : Actions config :=
  (List.finRange config.shardCount).flatMap fun index => guarded (.shard index) .exclusive []

def keys (pattern : Bytes) : Actions config := if pattern ≠ [0x2A] then [] else everyShard

def activeExpireCycle (samplesPerShard : Nat) : Actions config := if samplesPerShard = 0 then [] else everyShard

def exportSnapshotEntries : Actions config := everyShard
def clear : Actions config := everyShard

def lockWal : Actions config := guarded .wal .exclusive []

def append : Actions config := lockWal
def sync : Actions config := lockWal
def truncateAfter : Actions config := lockWal
def lastOffset : Actions config := lockWal

def durabilityAction (fsync : FsyncMode) : Actions config := if fsync = .always then sync else []

/-- The engine stays locked while the record is logged and the mutation is applied. -/
def durably (fsync : FsyncMode) (mutation : Actions config) : Actions config :=
  guarded .engine .exclusive (append ++ durabilityAction fsync ++ mutation)

def durableSet (fsync : FsyncMode) (key : Bytes) : Actions config := durably fsync (set key)

def durableDel (fsync : FsyncMode) (keys : List Bytes) (unlocking : Unlocking keys config) : Actions config :=
  durably fsync (delMany keys unlocking)

def durableExpire (fsync : FsyncMode) (key : Bytes) : Actions config := durably fsync (expireAt key)

def snapshotNow (fsync : FsyncMode) : Actions config :=
  guarded .engine .exclusive ((if fsync ≠ .none then sync else []) ++ exportSnapshotEntries ++ lastOffset ++ truncateAfter)

/-- Each wait on the condition variable unlocks the engine and locks it again. -/
def waitFor (waits : Nat) : Actions config :=
  (List.replicate waits [.release .engine,.acquire .engine .exclusive]).flatten

/-- One round of the fsync thread, which syncs after it has unlocked the engine. -/
def fsyncRound (waits : Nat) (stopping : Bool) : Actions config :=
  guarded .engine .exclusive (waitFor waits) ++ if stopping then [] else sync

inductive Operation (config : StoreConfig)
  | get (key : Bytes) (expired : Bool)
  | existsKey (key : Bytes) (expired : Bool)
  | ttl (key : Bytes) (expired : Bool)
  | expiryWallTime (key : Bytes) (expired : Bool)
  | set (key : Bytes)
  | del (key : Bytes)
  | expireAt (key : Bytes)
  | expire (key : Bytes)
  | delMany (keys : List Bytes) (unlocking : Unlocking keys config)
  | existsMany (keys : List Bytes) (unlocking : Unlocking keys config)
  | keys (pattern : Bytes)
  | activeExpireCycle (samplesPerShard : Nat)
  | exportSnapshotEntries
  | clear
  | durableSet (key : Bytes)
  | durableDel (keys : List Bytes) (unlocking : Unlocking keys config)
  | durableExpire (key : Bytes)
  | snapshotNow
  | fsyncRound (waits : Nat) (stopping : Bool)

def Operation.actions (fsync : FsyncMode) : Operation config → Actions config
  | .get key expired => Locking.get key expired
  | .existsKey key expired => Locking.existsKey key expired
  | .ttl key expired => Locking.ttl key expired
  | .expiryWallTime key expired => Locking.expiryWallTime key expired
  | .set key => Locking.set key
  | .del key => Locking.del key
  | .expireAt key => Locking.expireAt key
  | .expire key => Locking.expire key
  | .delMany names unlocking => Locking.delMany names unlocking
  | .existsMany names unlocking => Locking.existsMany names unlocking
  | .keys pattern => Locking.keys pattern
  | .activeExpireCycle samplesPerShard => Locking.activeExpireCycle samplesPerShard
  | .exportSnapshotEntries => Locking.exportSnapshotEntries
  | .clear => Locking.clear
  | .durableSet key => Locking.durableSet fsync key
  | .durableDel names unlocking => Locking.durableDel fsync names unlocking
  | .durableExpire key => Locking.durableExpire fsync key
  | .snapshotNow => Locking.snapshotNow fsync
  | .fsyncRound waits stopping => Locking.fsyncRound waits stopping

/-- An operation that runs to its end, or is left by an exception after so many actions. -/
structure Attempt (config : StoreConfig) where
  operation : Operation config
  thrown : Option Nat

def Attempt.actions (fsync : FsyncMode) (attempt : Attempt config) : Actions config :=
  match attempt.thrown with
  | none => attempt.operation.actions fsync
  | some count => unwound [] count (attempt.operation.actions fsync)

def program (fsync : FsyncMode) (attempts : List (Attempt config)) : Actions config :=
  attempts.flatMap (Attempt.actions fsync)

/-! The engine is locked before the log, and the log before the shards in their order. -/

def rank : Lock config → Nat
  | .engine => 0
  | .wal => 1
  | .shard index => index + 2

theorem rank_injective : Function.Injective (rank : Lock config → Nat) := by
  intro one two same
  cases one <;> cases two <;> simp [rank] at same ⊢
  exact Fin.ext same

theorem rank_lt (lock : Lock config) : rank lock < config.shardCount + 2 := by
  cases lock with
  | engine | wal => simp [rank]
  | shard index => exact Nat.add_lt_add_right index.isLt 2

instance : Finite (Lock config) :=
  Finite.of_injective (fun lock : Lock config => (⟨rank lock,rank_lt lock⟩ : Fin (config.shardCount + 2)))
    fun _ _ same => rank_injective (congrArg Fin.val same)

theorem lockMutexesInOrder_ascending (mutexes : List (Fin config.shardCount)) :
    (lockMutexesInOrder mutexes).Pairwise (· < ·) := by
  have sorted : (mutexes.mergeSort fun one two => one ≤ two).Pairwise (· ≤ ·) := by
    simpa using List.pairwise_mergeSort' (· ≤ ·) mutexes
  have kept : (lockMutexesInOrder mutexes).Pairwise (· ≤ ·) := sorted.sublist (List.destutter_sublist _ _)
  have distinct : (lockMutexesInOrder mutexes).Nodup := by
    rw [lockMutexesInOrder,sorted.destutter_eq_dedup]
    exact List.nodup_dedup _
  exact (kept.and distinct).imp fun both => lt_of_le_of_ne both.1 both.2

/-- A section with nothing inside. -/
theorem section_orderly {lock : Lock config} {mode : Mode} {low : Nat} (le : low ≤ rank lock) :
    Orderly rank low (guarded lock mode []) := Orderly.nil.guarded le

theorem shard_section {index : Fin config.shardCount} {mode : Mode} : Orderly rank 2 (guarded (.shard index) mode []) :=
  section_orderly (Nat.le_add_left 2 index)

theorem readEntry_orderly (key : Bytes) (expired : Bool) : Orderly rank 2 (readEntry key expired : Actions config) :=
  shard_section.append (shard_section.ite .nil)

theorem lockMany_orderly (keys : List Bytes) (unlocking : Unlocking keys config) :
    Orderly rank 2 (lockMany keys unlocking) := by
  refine Orderly.nil.ite (.several ?_ (unlocking.all.map Lock.shard) fun lock member => ?_)
  · refine List.pairwise_map.mpr ((lockMutexesInOrder_ascending _).imp fun less => ?_)
    exact Nat.add_lt_add_right less 2
  · obtain ⟨index,_,rfl⟩ := List.mem_map.mp member
    exact Nat.le_add_left 2 index

theorem everyShard_orderly : Orderly rank 2 (everyShard : Actions config) :=
  .flatMap fun _ _ => shard_section

theorem lockWal_orderly : Orderly rank 1 (lockWal : Actions config) := section_orderly (Nat.le_refl 1)

theorem durably_orderly (fsync : FsyncMode) {mutation : Actions config} (orderly : Orderly rank 2 mutation) :
    Orderly rank 0 (durably fsync mutation) := by
  have synced : Orderly rank 1 (durabilityAction fsync : Actions config) := lockWal_orderly.ite .nil
  exact ((lockWal_orderly.append synced).append (orderly.mono (Nat.le_succ 1))).guarded (Nat.le_refl 0)

theorem snapshotNow_orderly (fsync : FsyncMode) : Orderly rank 0 (snapshotNow fsync : Actions config) := by
  have synced : Orderly rank 1 (if fsync ≠ .none then sync else [] : Actions config) := lockWal_orderly.ite .nil
  have exported : Orderly rank 1 (exportSnapshotEntries : Actions config) := everyShard_orderly.mono (Nat.le_succ 1)
  exact (((synced.append exported).append lockWal_orderly).append lockWal_orderly).guarded (Nat.le_refl 0)

/-- Waiting under a guard is a sequence of sections. -/
theorem waitFor_sections (waits : Nat) : guarded .engine .exclusive (waitFor waits : Actions config) =
    (List.replicate (waits + 1) ()).flatMap fun _ => guarded .engine .exclusive [] := by
  induction waits with
  | zero => rfl
  | succ waits ih =>
    rw [List.replicate_succ,List.flatMap_cons,← ih]
    rfl

theorem fsyncRound_orderly (waits : Nat) (stopping : Bool) : Orderly rank 0 (fsyncRound waits stopping : Actions config) := by
  unfold fsyncRound
  rw [waitFor_sections]
  refine Orderly.append (.flatMap fun _ _ => section_orderly (Nat.zero_le _)) ?_
  exact Orderly.nil.ite (lockWal_orderly.mono (Nat.zero_le 1))

theorem Operation.orderly (fsync : FsyncMode) (operation : Operation config) :
    Orderly rank 0 (operation.actions fsync) := by
  have shards : ∀ {actions : Actions config}, Orderly rank 2 actions → Orderly rank 0 actions :=
    fun orderly => orderly.mono (Nat.zero_le 2)
  cases operation with
  | get key expired | existsKey key expired | ttl key expired | expiryWallTime key expired =>
    exact shards (readEntry_orderly key expired)
  | set | del | expireAt | expire => exact shards shard_section
  | delMany keys unlocking | existsMany keys unlocking => exact shards (lockMany_orderly keys unlocking)
  | keys | activeExpireCycle => exact shards (Orderly.nil.ite everyShard_orderly)
  | exportSnapshotEntries | clear => exact shards everyShard_orderly
  | durableSet | durableExpire => exact durably_orderly fsync shard_section
  | durableDel keys unlocking => exact durably_orderly fsync (lockMany_orderly keys unlocking)
  | snapshotNow => exact snapshotNow_orderly fsync
  | fsyncRound waits stopping => exact fsyncRound_orderly waits stopping

theorem program_orderly (fsync : FsyncMode) (attempts : List (Attempt config)) :
    Orderly rank 0 (program fsync attempts) := by
  refine .flatMap fun attempt _ => ?_
  unfold Attempt.actions
  split
  · exact attempt.operation.orderly fsync
  · exact (attempt.operation.orderly fsync).unwound _

section threads
variable {Thread : Type} [DecidableEq Thread]

theorem reached_disciplined {fsync : FsyncMode} {threads : Thread → List (Attempt config)}
    {state : State Thread (Lock config)} (reached : Reachable (fun thread => program fsync (threads thread)) state) :
    AllDisciplined rank state :=
  reachable_disciplined (fun thread => (program_orderly fsync (threads thread)).disciplined) reached

/-- Whatever the threads do and however their steps interleave: no threads wait for locks that
are held among them, and none asks for a lock that it holds. -/
theorem locks_never_deadlock (fsync : FsyncMode) (threads : Thread → List (Attempt config))
    (state : State Thread (Lock config)) (reached : Reachable (fun thread => program fsync (threads thread)) state) :
    (∀ waiting : Set Thread, waiting.Nonempty → ¬ Deadlocked state waiting) ∧
      ∀ thread lock, Requests state thread lock → state.held thread lock = none := by
  have disciplined := reached_disciplined reached
  exact ⟨fun waiting some_ => not_deadlocked disciplined some_,fun thread lock => requests_new disciplined⟩

/-- A thread deletes two keys and has locked the engine, and another one counts them. -/
def crossing : Bool → List (Attempt ⟨2,Nat.two_pos,List.length,64⟩)
  | false => [⟨.durableDel [[],[0x6B],[]] ⟨_,.refl _⟩,none⟩]
  | true => [⟨.existsMany [[0x6B],[]] ⟨_,.refl _⟩,none⟩]

theorem locks_never_deadlock_crossing :
    let programs := fun thread => program .always (crossing thread)
    let state := (start programs).go false (programs false).tail .engine (some .exclusive)
    (∀ waiting : Set Bool, waiting.Nonempty → ¬ Deadlocked state waiting) ∧
      ∀ thread lock, Requests state thread lock → state.held thread lock = none :=
  locks_never_deadlock .always crossing _ (.single (.acquire rfl nofun))

/-- While a thread is not finished, one of them can go on. -/
theorem locks_progress (fsync : FsyncMode) (threads : Thread → List (Attempt config))
    (state : State Thread (Lock config)) (reached : Reachable (fun thread => program fsync (threads thread)) state)
    (thread : Thread) (unfinished : state.remaining thread ≠ []) : ∃ next, Step state next :=
  can_step (reached_disciplined reached) unfinished

end threads

end NovaCache.Locking
