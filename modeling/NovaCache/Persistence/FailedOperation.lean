import NovaCache.Persistence.Restore

/-! Durable operations that fail. The store is changed last, so it stays as it was. The log does
not always: an `fsync` that fails leaves the whole record behind, and recovery replays it. -/
namespace NovaCache.Persistence
open WalWriter
variable {config : StoreConfig}

/-- A log that ends with a whole record, and the writer behind it. -/
structure Intact (wal : WalWriter) (records : List WalRecord) : Prop where
  written : ∃ reserved, wal = writerAt reserved records wal.lastOffset
  fits : ∀ record ∈ records, bodyLength record < 2^32 - 8
  increasing : Increasing 0 records
  covered : lastOffsetOf 0 records ≤ wal.lastOffset
  room : wal.lastOffset.toNat + 1 < 2^64

namespace Logged

/-- The bytes of the record in the log. -/
def size (logged : Logged) : Nat := logged.payload.length + 18

/-- Replaying the mutation on this store leaves what a reader sees. -/
def Inert (logged : Logged) (store : Store config) (readings : Instant × Instant) (now : Int) : Prop :=
  (logged.apply store readings.1 readings.2).content now = store.content now

end Logged

theorem perform_failed (engine : PersistenceEngine) (io : Io) (store : Store config) (mutation : Mutation) (wallNow : Int)
    (first second : Instant) {failure : Failure}
    (failed : (engine.perform io store mutation wallNow first second).1 = .error failure) :
    (engine.perform io store mutation wallNow first second).2 =
      ((engine.log io (mutation.logged wallNow).opcode (mutation.logged wallNow).payload).2,store) := by
  rw [perform_eq] at failed ⊢
  split at failed
  · next logged => rw [logged]
  · cases failed

theorem log_snapshot (engine : PersistenceEngine) (io : Io) (opcode : WalOpcode) (payload : Bytes) :
    (engine.log io opcode payload).2.snapshot = engine.snapshot := by
  unfold PersistenceEngine.log
  split <;> rfl

theorem log_wal (engine : PersistenceEngine) (io : Io) (opcode : WalOpcode) (payload : Bytes) :
    (engine.log io opcode payload).2.wal = (append io.writes engine.wal opcode payload).2 := by
  unfold PersistenceEngine.log
  split
  · next appended => rw [appended]
  · next appended => rw [appended]

/-- What one more record makes of the log, whether it is stored whole or in part. -/
theorem append_logged {wal : WalWriter} {records : List WalRecord} {reserved : UInt32}
    (written : wal = writerAt reserved records wal.lastOffset) (io : Io) (logged : Logged) :
    (storedCount io.writes logged.size = logged.size → append io.writes wal logged.opcode logged.payload =
      (.ok (wal.lastOffset + 1),writerEnd (headerWith reserved ++ encodeLog records ++
        encodeRecord ⟨wal.lastOffset + 1,logged.opcode,logged.payload⟩) (wal.lastOffset + 1))) ∧
    (storedCount io.writes logged.size < logged.size → ∃ failure, append io.writes wal logged.opcode logged.payload =
      (.error failure,writerEnd (headerWith reserved ++ encodeLog records ++
        (encodeRecord ⟨wal.lastOffset + 1,logged.opcode,logged.payload⟩).take (storedCount io.writes logged.size))
        wal.lastOffset)) := by
  have behind : wal = writerEnd (headerWith reserved ++ encodeLog records) wal.lastOffset := by
    rw [written,writerAt,writerEnd,List.length_append,headerWith_length]
  have step := append_attempt (headerWith reserved ++ encodeLog records) wal.lastOffset
    ⟨logged.opcode,logged.payload,io.writes⟩
  rw [← behind] at step
  exact step

theorem Intact.last {engine : PersistenceEngine} {records : List WalRecord} (intact : Intact engine.wal records) (io : Io)
    (logged : Logged) : (engine.log io logged.opcode logged.payload).2.wal.lastOffset =
      if storedCount io.writes logged.size < logged.size then engine.wal.lastOffset else engine.wal.lastOffset + 1 := by
  obtain ⟨reserved,written⟩ := intact.written
  obtain ⟨whole,torn⟩ := append_logged written io logged
  rw [log_wal]
  split
  · next partly =>
    obtain ⟨failure,appended⟩ := torn partly
    rw [appended]
    rfl
  · next all =>
    rw [whole (Nat.le_antisymm (storedCount_le _ _) (Nat.not_lt.mp all))]
    rfl

/-- A record that was stored in part is not found by the scan, one that was stored whole is. -/
theorem Intact.log {engine : PersistenceEngine} {records : List WalRecord} (intact : Intact engine.wal records) (io : Io)
    (logged : Logged) (short : logged.Short) :
    (engine.log io logged.opcode logged.payload).2.scanned =
      if storedCount io.writes logged.size < logged.size then .ok records
      else .ok (records ++ [⟨engine.wal.lastOffset + 1,logged.opcode,logged.payload⟩]) := by
  obtain ⟨reserved,written⟩ := intact.written
  let record : WalRecord := ⟨engine.wal.lastOffset + 1,logged.opcode,logged.payload⟩
  have bound : bodyLength record < 2^32 - 8 := by
    have small : logged.payload.length + 18 < 2^32 := short
    change logged.payload.length + 10 < 2^32 - 8
    omega
  have step := append_logged written io logged
  rw [PersistenceEngine.scanned,log_wal]
  split
  · next partly =>
    obtain ⟨failure,appended⟩ := step.2 partly
    have opened := openAndRecover_log reserved records ((encodeRecord record).take (storedCount io.writes logged.size))
      intact.fits intact.increasing (torn_not_startsRecord record _ (by omega) (by rwa [encodeRecord_length]))
      (torn_not_overlong record _ (by omega))
    rw [appended]
    change Except.map Prod.fst (openAndRecover (headerWith reserved ++ encodeLog records ++
      (encodeRecord record).take (storedCount io.writes logged.size))) = _
    rw [List.append_assoc,opened]
    rfl
  · next whole =>
    have appended := step.1 (Nat.le_antisymm (storedCount_le _ _) (Nat.not_lt.mp whole))
    have next := offset_succ engine.wal.lastOffset intact.room
    have larger : Increasing 0 (records ++ [record]) := by
      refine (increasing_concat 0 records record).mpr ⟨intact.increasing,UInt64.lt_iff_toNat_lt.mpr ?_⟩
      have covered := UInt64.le_iff_toNat_le.mp intact.covered
      change _ < (engine.wal.lastOffset + 1).toNat
      omega
    have opened := openAndRecover_log reserved (records ++ [record]) []
      (List.forall_mem_append.mpr ⟨intact.fits,List.forall_mem_singleton.mpr bound⟩) larger empty_not_startsRecord
      empty_not_overlong
    rw [appended]
    change Except.map Prod.fst (openAndRecover (headerWith reserved ++ encodeLog records ++ encodeRecord record)) = _
    rw [List.append_nil,encodeLog_append,← List.append_assoc] at opened
    change openAndRecover (headerWith reserved ++ encodeLog records ++ (encodeRecord record ++ [])) = _ at opened
    rw [List.append_nil] at opened
    rw [opened]
    rfl

theorem Intact.scanned {engine : PersistenceEngine} {records : List WalRecord} (intact : Intact engine.wal records) :
    engine.scanned = .ok records := by
  obtain ⟨reserved,written⟩ := intact.written
  have opened := openAndRecover_log reserved records [] intact.fits intact.increasing empty_not_startsRecord
    empty_not_overlong
  rw [List.append_nil] at opened
  rw [PersistenceEngine.scanned,written]
  change Except.map Prod.fst (openAndRecover (headerWith reserved ++ encodeLog records)) = _
  rw [opened]
  rfl

/-- What recovery makes of a log with one more record. -/
theorem recovered_concat {engine other : PersistenceEngine} (snapshot : other.snapshot = engine.snapshot)
    {records : List WalRecord} {offset : UInt64} {logged : Logged} (before : engine.scanned = .ok records)
    (after : other.scanned = .ok (records ++ [⟨offset,logged.opcode,logged.payload⟩])) (short : logged.Short)
    (target : Store config) (clock : RecoveryClock) :
    other.recovered target clock = engine.recovered target clock >>= fun store =>
      if offset ≤ engine.loadSnapshot.1 then .ok store
      else
        let readings := clock (engine.loadSnapshot.2.length + replayedCount engine.loadSnapshot.1 records)
        .ok (logged.apply store readings.1 readings.2) := by
  have loaded : other.loadSnapshot = engine.loadSnapshot := by
    rw [PersistenceEngine.loadSnapshot,PersistenceEngine.loadSnapshot,snapshot]
  rw [PersistenceEngine.recovered_eq,PersistenceEngine.recovered_eq,before,after,loaded,ok_bind,ok_bind,
    replayRecords_concat]
  congr 1
  funext store
  rw [applyRecord_logged store offset logged _ _ short]

/-- A durable operation that fails leaves the store, and recovery finds the same content as
before whenever the scan finds the same records. On a log that was whole it does so exactly
if the record was not stored whole, or lies below the snapshot, or replays to no effect. -/
theorem failed_operation_iff (engine : PersistenceEngine) (io : Io) (store : Store config) (mutation : Mutation)
    (wallNow : Int) (first second : Instant) (failure : Failure)
    (failed : (engine.perform io store mutation wallNow first second).1 = .error failure) (target : Store config)
    (clock : RecoveryClock) (now : Int) :
    let after := (engine.perform io store mutation wallNow first second).2
    let logged := mutation.logged wallNow
    after.2 = store ∧
    (after.1.scanned = engine.scanned → after.1.restored target clock now = engine.restored target clock now) ∧
    ∀ records, Intact engine.wal records → logged.Short →
      (after.1.restored target clock now = engine.restored target clock now ↔
        storedCount io.writes logged.size < logged.size ∨ engine.wal.lastOffset + 1 ≤ engine.loadSnapshot.1 ∨
        ∀ recovered, engine.recovered target clock = .ok recovered → logged.Inert recovered
          (clock (engine.loadSnapshot.2.length + replayedCount engine.loadSnapshot.1 records)) now) := by
  intro after logged
  have kept : after = ((engine.log io logged.opcode logged.payload).2,store) :=
    perform_failed engine io store mutation wallNow first second failed
  have files : after.1 = (engine.log io logged.opcode logged.payload).2 := congrArg Prod.fst kept
  have snapshot : after.1.snapshot = engine.snapshot := by
    rw [files]
    exact log_snapshot engine io _ _
  refine ⟨congrArg Prod.snd kept,fun scan => ?_,fun records intact short => ?_⟩
  · rw [PersistenceEngine.restored,PersistenceEngine.restored,PersistenceEngine.recovered_congr snapshot scan]
  · have scan := intact.log io logged short
    rw [← files] at scan
    split at scan
    · next partly =>
      have same := PersistenceEngine.recovered_congr snapshot (scan.trans intact.scanned.symm) target clock
      rw [PersistenceEngine.restored,PersistenceEngine.restored,same]
      exact iff_of_true rfl (Or.inl partly)
    · next whole =>
      have extended := recovered_concat snapshot intact.scanned scan short target clock
      rw [PersistenceEngine.restored,PersistenceEngine.restored,extended]
      cases engine.recovered target clock with
      | error failure => exact iff_of_true rfl (Or.inr (Or.inr fun recovered impossible => nomatch impossible))
      | ok recovered =>
        rw [ok_bind]
        split
        · next below => exact iff_of_true rfl (Or.inr (Or.inl below))
        · next above =>
          constructor
          · intro same
            refine Or.inr (Or.inr fun other equal => ?_)
            cases equal
            exact Except.ok.inj same
          · intro condition
            have inert := (condition.resolve_left whole).resolve_left above recovered rfl
            exact congrArg Except.ok inert

/-- A new directory under `fsync=always`, and a SET in it with these results of the calls. -/
def opened : PersistenceEngine := ⟨.always,none,writerAt 0 [] 0⟩

abbrev twoShards : StoreConfig := ⟨2,by decide,List.length,80⟩

def blank : Store twoShards := Store.empty

def still : RecoveryClock := fun _ => (⟨0,0⟩,⟨0,0⟩)

def setUnder (io : Io) : Except Failure Unit × PersistenceEngine × Store twoShards :=
  opened.perform io blank (.set [0x6B] [0x76]) 0 ⟨0,0⟩ ⟨0,0⟩

theorem opened_intact : Intact opened.wal [] :=
  ⟨⟨0,rfl⟩,List.forall_mem_nil _,trivial,UInt64.le_refl 0,by decide⟩

theorem failed_operation_torn : (setUnder ⟨[.wrote 3,.failed],true⟩).1 = .error (.systemError "write") ∧
    (setUnder ⟨[.wrote 3,.failed],true⟩).2.1.restored blank still 0 = opened.restored blank still 0 := by
  have failed : (setUnder ⟨[.wrote 3,.failed],true⟩).1 = .error (.systemError "write") := by decide +kernel
  obtain ⟨_,_,exactly⟩ := failed_operation_iff opened ⟨[.wrote 3,.failed],true⟩ blank (.set [0x6B] [0x76]) 0 ⟨0,0⟩ ⟨0,0⟩ _
    failed blank still 0
  exact ⟨failed,(exactly [] opened_intact (by unfold Logged.Short; decide)).mpr (Or.inl (by decide))⟩

/-- The `fsync` fails, the SET is reported as failed, and the next recovery performs it. -/
theorem unsynced_record_replayed : (setUnder ⟨[],false⟩).1 = .error (.systemError "fsync(WAL)") ∧
    (opened.restored blank still 0).map (· [0x6B]) = .ok none ∧
    ((setUnder ⟨[],false⟩).2.1.restored blank still 0).map (· [0x6B]) = .ok (some (.string [0x76],none)) := by
  decide +kernel

end NovaCache.Persistence
