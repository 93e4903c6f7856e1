import NovaCache.Persistence.LateReplay
import NovaCache.Persistence.WalFailure

/-! What recovery makes of the two files. Only the records that the scan finds, and what the
snapshot decodes to, have a part in it. -/
namespace NovaCache.Persistence
open WalWriter
variable {config : StoreConfig}

namespace PersistenceEngine

/-- The records that the scan finds in the log. -/
def scanned (engine : PersistenceEngine) : Except Failure (List WalRecord) :=
  (openAndRecover engine.wal.file.bytes).map Prod.fst

/-- The store that recovery fills from the files. -/
def recovered (engine : PersistenceEngine) (target : Store config) (clock : RecoveryClock) : Except Failure (Store config) :=
  (engine.recoverInto target clock).map Prod.snd

def restored (engine : PersistenceEngine) (target : Store config) (clock : RecoveryClock) (now : Int) :
    Except Failure WallMap :=
  (engine.recovered target clock).map fun store => store.content now

theorem recovered_eq (engine : PersistenceEngine) (target : Store config) (clock : RecoveryClock) :
    engine.recovered target clock = engine.scanned >>= fun records =>
      replayRecords clock engine.loadSnapshot.1 engine.loadSnapshot.2.length records
        (importEntries clock 0 engine.loadSnapshot.2 target.clear) := by
  rcases loaded : engine.loadSnapshot with ⟨offset,entries⟩
  rw [recovered,recoverInto,scanned,loaded]
  cases openAndRecover engine.wal.file.bytes with
  | error failure => rfl
  | ok opened =>
    obtain ⟨records,wal⟩ := opened
    change Except.map Prod.snd (replayRecords clock offset entries.length records _ >>= _) =
      replayRecords clock offset entries.length records _
    cases replayRecords clock offset entries.length records (importEntries clock 0 entries target.clear) <;> rfl

theorem recovered_congr {engine other : PersistenceEngine} (snapshot : other.snapshot = engine.snapshot)
    (scan : other.scanned = engine.scanned) (target : Store config) (clock : RecoveryClock) :
    other.recovered target clock = engine.recovered target clock := by
  have loaded : other.loadSnapshot = engine.loadSnapshot := by rw [loadSnapshot,loadSnapshot,snapshot]
  rw [recovered_eq,recovered_eq,scan,loaded]

end PersistenceEngine

/-- How many of the records recovery applies. -/
def replayedCount (snapshotOffset : UInt64) (records : List WalRecord) : Nat :=
  records.countP fun record => snapshotOffset < record.offset

theorem replayRecords_concat (clock : RecoveryClock) (snapshotOffset : UInt64) (records : List WalRecord)
    (record : WalRecord) (index : Nat) (store : Store config) :
    replayRecords clock snapshotOffset index (records ++ [record]) store =
      replayRecords clock snapshotOffset index records store >>= fun replayed =>
        if record.offset ≤ snapshotOffset then .ok replayed
        else applyRecord replayed record (clock (index + replayedCount snapshotOffset records)).1
          (clock (index + replayedCount snapshotOffset records)).2 := by
  induction records generalizing index store with
  | nil =>
    simp only [List.nil_append,replayRecords,ok_bind,replayedCount,List.countP_nil,Nat.add_zero]
    by_cases skipped : record.offset ≤ snapshotOffset
    · rw [if_pos skipped,if_pos skipped]
    · rw [if_neg skipped,if_neg skipped]
      exact bind_pure _
  | cons first records ih =>
    rw [List.cons_append,replayRecords,replayRecords,replayedCount,List.countP_cons]
    split
    · next skipped =>
      rw [ih,if_neg (by simpa using UInt64.not_lt.mpr skipped)]
      rfl
    · next above =>
      rw [if_pos (by simpa using UInt64.not_le.mp above)]
      cases applyRecord store first (clock index).1 (clock index).2 with
      | error failure => rfl
      | ok next =>
        change replayRecords clock snapshotOffset (index + 1) (records ++ [record]) next = _
        rw [ih,replayedCount,Nat.add_right_comm,← Nat.add_assoc]
        rfl

end NovaCache.Persistence
