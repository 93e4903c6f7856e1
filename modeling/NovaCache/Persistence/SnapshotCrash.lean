import NovaCache.Persistence.FailedOperation
import NovaCache.Persistence.Durability
import NovaCache.Persistence.WalReopen

/-! Crashes inside `snapshot_now`. The old snapshot stands until the rename; from then on the
new one holds all that the log does, so that every record left in the log is skipped. -/
namespace NovaCache.Persistence
open WalWriter
variable {config other : StoreConfig}

/-- The files of the directory. -/
structure Disk where
  snapshot : Option Bytes
  temporary : Option Bytes
  log : Bytes

/-- The calls of `snapshot_now` on files, with `write_all` taken byte by byte. -/
inductive FileOp
  | openTemporary
  | writeTemporary (byte : UInt8)
  | syncTemporary
  | closeTemporary
  | rename
  | syncDirectory
  | truncateLog
  | writeLog (byte : UInt8)
  | syncLog

namespace Disk

def step (disk : Disk) : FileOp → Disk
  | .openTemporary => {disk with temporary := some []}
  | .writeTemporary byte => {disk with temporary := disk.temporary.map (· ++ [byte])}
  | .rename => {disk with snapshot := disk.temporary, temporary := none}
  | .truncateLog => {disk with log := []}
  | .writeLog byte => {disk with log := disk.log ++ [byte]}
  | .syncTemporary | .closeTemporary | .syncDirectory | .syncLog => disk

def run (disk : Disk) (ops : List FileOp) : Disk := ops.foldl step disk

/-- What a new process recovers from the files; the temporary one is not read. -/
def restored (disk : Disk) (target : Store config) (clock : RecoveryClock) (now : Int) : Except Failure WallMap :=
  (PersistenceEngine.new .always disk.snapshot disk.log).restored target clock now

end Disk

def staging (file : Bytes) : List FileOp :=
  .openTemporary::(file.map .writeTemporary ++ [.syncTemporary,.closeTemporary])

def rotation : List FileOp := .truncateLog::(header.map .writeLog ++ [.syncLog])

def replacing (file : Bytes) : List FileOp := staging file ++ .rename::.syncDirectory::rotation

namespace PersistenceEngine

def disk (engine : PersistenceEngine) (leftover : Option Bytes) : Disk :=
  ⟨engine.snapshot,leftover,engine.wal.file.bytes⟩

/-- The file that `snapshot_now` writes at this time. -/
def snapshotFile (engine : PersistenceEngine) (store : Store config) (now : Int) : Bytes :=
  SnapshotStore.encode engine.wal.lastOffset (store.exportSnapshotEntries now).1

/-- The log gives out offsets in order, and the last one is known. -/
def Covered (engine : PersistenceEngine) : Prop :=
  ∀ records, engine.scanned = .ok records → ∀ record ∈ records, record.offset ≤ engine.wal.lastOffset

end PersistenceEngine

theorem disk_restored (engine : PersistenceEngine) (leftover : Option Bytes) (target : Store config) (clock : RecoveryClock)
    (now : Int) : (engine.disk leftover).restored target clock now = engine.restored target clock now := by
  have same := @PersistenceEngine.recovered_congr config engine
    (PersistenceEngine.new .always engine.snapshot engine.wal.file.bytes) rfl rfl target clock
  exact congrArg (Except.map fun store => store.content now) same

/-- A log that ends with a whole record tells its last offset. -/
theorem Intact.covers {engine : PersistenceEngine} {records : List WalRecord} (intact : Intact engine.wal records) :
    engine.Covered := by
  intro listed scan record member
  cases intact.scanned.symm.trans scan
  exact UInt64.le_trans (offset_le_last records 0 intact.increasing record member) intact.covered

/-- One more record, whole or torn, is covered too. -/
theorem Intact.covers_log {engine : PersistenceEngine} {records : List WalRecord} (intact : Intact engine.wal records)
    (io : Io) (logged : Logged) (short : logged.Short) : (engine.log io logged.opcode logged.payload).2.Covered := by
  have covered := intact.covers records intact.scanned
  intro listed scan
  rw [intact.log io logged short] at scan
  rw [intact.last io logged]
  split at scan
  · next partly =>
    cases scan
    rw [if_pos partly]
    exact covered
  · next whole =>
    cases scan
    have next := offset_succ engine.wal.lastOffset intact.room
    rw [if_neg whole]
    refine List.forall_mem_append.mpr ⟨fun record member => UInt64.le_iff_toNat_le.mpr ?_,
      List.forall_mem_singleton.mpr (UInt64.le_refl _)⟩
    have below := UInt64.le_iff_toNat_le.mp (covered record member)
    omega

/-- Recovery finds the last offset of the log that it leaves, if no record is too long to be stepped over. -/
theorem recoverInto_covered {engine next : PersistenceEngine} {target store : Store config} {clock : RecoveryClock}
    (recovered : engine.recoverInto target clock = .ok (next,store)) (giantFree : GiantFree engine.wal.file.bytes) :
    next.Covered := by
  obtain ⟨⟨records,wal⟩,opened,replayed⟩ := bind_success _ _ _ recovered
  obtain ⟨loaded,_,left⟩ := bind_success _ _ _ replayed
  cases left
  obtain ⟨reserved,settled⟩ := settled_reopened opened giantFree
  intro listed scan record member
  have again : Except.map Prod.fst (openAndRecover wal.file.bytes) = .ok records := by
    rw [settled.again]
    rfl
  cases again.symm.trans scan
  change record.offset ≤ wal.lastOffset
  rw [settled.last]
  exact offset_le_last records 0 settled.increasing record member

theorem disk_run_append (disk : Disk) (first second : List FileOp) :
    disk.run (first ++ second) = (disk.run first).run second := List.foldl_append

theorem disk_run_cons (disk : Disk) (op : FileOp) (ops : List FileOp) : disk.run (op::ops) = (disk.step op).run ops := rfl

/-- Calls on the temporary file. -/
def FileOp.stages : FileOp → Bool
  | .openTemporary | .writeTemporary _ | .syncTemporary | .closeTemporary => true
  | _ => false

theorem run_stages (ops : List FileOp) (disk : Disk) (only : ∀ op ∈ ops, op.stages = true) :
    (disk.run ops).snapshot = disk.snapshot ∧ (disk.run ops).log = disk.log := by
  induction ops generalizing disk with
  | nil => exact ⟨rfl,rfl⟩
  | cons op ops ih =>
    obtain ⟨here,others⟩ := List.forall_mem_cons.mp only
    obtain ⟨snapshot,log⟩ := ih (disk.step op) others
    cases op with
    | openTemporary | writeTemporary | syncTemporary | closeTemporary => exact ⟨snapshot,log⟩
    | _ => cases here

theorem staging_stages (file : Bytes) : ∀ op ∈ staging file, op.stages = true := by
  intro op member
  simp only [staging,List.mem_cons,List.mem_append,List.mem_map,List.not_mem_nil,or_false] at member
  rcases member with rfl | ⟨byte,_,rfl⟩ | rfl | rfl <;> rfl

theorem run_writeTemporary (file written : Bytes) (disk : Disk) (opened : disk.temporary = some written) :
    (disk.run (file.map .writeTemporary)).temporary = some (written ++ file) := by
  induction file generalizing disk written with
  | nil => rw [List.append_nil,← opened]; rfl
  | cons byte file ih =>
    rw [List.append_cons]
    refine ih (written ++ [byte]) (disk.step (.writeTemporary byte)) ?_
    rw [Disk.step,opened]
    rfl

theorem run_staging (file : Bytes) (disk : Disk) : disk.run (staging file) = ⟨disk.snapshot,some file,disk.log⟩ := by
  obtain ⟨snapshot,log⟩ := run_stages (staging file) disk (staging_stages file)
  have staged : (disk.run (staging file)).temporary = some file := by
    have written := run_writeTemporary file [] (disk.step .openTemporary) rfl
    change ((disk.step .openTemporary).run (file.map .writeTemporary ++ _)).temporary = _
    rw [disk_run_append]
    exact written
  rw [← snapshot,← log,← staged]

theorem run_writeLog (bytes : Bytes) (disk : Disk) :
    disk.run (bytes.map .writeLog) = {disk with log := disk.log ++ bytes} := by
  induction bytes generalizing disk with
  | nil => rw [List.append_nil]; rfl
  | cons byte bytes ih =>
    rw [List.append_cons]
    exact ih (disk.step (.writeLog byte))

theorem run_rotation (disk : Disk) (count : Nat) :
    disk.run (rotation.take (count + 1)) = {disk with log := header.take count} := by
  change (disk.step .truncateLog).run ((header.map FileOp.writeLog ++ [FileOp.syncLog]).take count) = _
  rw [List.take_append,disk_run_append,← List.map_take,run_writeLog]
  cases count - (header.map FileOp.writeLog).length with
  | zero => rfl
  | succ past => rw [List.take_succ_cons,List.take_nil]; rfl

theorem run_replacing (file : Bytes) (disk : Disk) : disk.run (replacing file) = ⟨some file,none,header⟩ := by
  simp only [replacing,rotation,disk_run_append,disk_run_cons,run_staging,run_writeLog,Disk.step,List.nil_append]
  rfl

/-- If no call fails, `snapshot_now` makes all of these calls. -/
theorem snapshotNow_replaces (engine : PersistenceEngine) (opened : engine.wal.isOpen = true) (io : SnapshotIo)
    (faultless : io.Faultless) (store : Store config) (now : Int) (leftover : Option Bytes) :
    (engine.snapshotNow io store now).1 = .ok () ∧ (engine.snapshotNow io store now).2.1.disk none =
      (engine.disk leftover).run (replacing (engine.snapshotFile store now)) := by
  rw [snapshotNow_quiet engine opened io faultless,run_replacing,PersistenceEngine.disk]
  simp [writerAt,encodeLog,header_eq,PersistenceEngine.snapshotFile]

/-- The old snapshot with the log, or the new one with the log as it was or with a part of its
header. -/
def Interrupted (disk : Disk) (file : Bytes) (found : Disk) : Prop :=
  (found.snapshot = disk.snapshot ∧ found.log = disk.log) ∨
    found.snapshot = some file ∧ (found.log = disk.log ∨ ∃ size, found.log = header.take size)

theorem crash_interrupted (disk : Disk) (file : Bytes) (count : Nat) :
    Interrupted disk file (disk.run ((replacing file).take count)) := by
  have split : disk.run ((replacing file).take count) = (disk.run ((staging file).take count)).run
      ((.rename::.syncDirectory::rotation).take (count - (staging file).length)) := by
    rw [← disk_run_append,← List.take_append]
    rfl
  by_cases inside : count ≤ (staging file).length
  · left
    rw [Nat.sub_eq_zero_of_le inside] at split
    rw [split]
    exact run_stages _ disk fun op member => staging_stages file op (List.mem_of_mem_take member)
  · right
    rw [List.take_of_length_le (Nat.le_of_not_le inside),run_staging] at split
    rw [split]
    obtain ⟨past,same⟩ : ∃ past, count - (staging file).length = past + 1 := ⟨count - (staging file).length - 1,by omega⟩
    rw [same]
    cases past with
    | zero => exact ⟨rfl,Or.inl rfl⟩
    | succ past =>
      have renamed : Disk.run ⟨disk.snapshot,some file,disk.log⟩
          ((FileOp.rename::.syncDirectory::rotation).take (past + 1 + 1)) =
        Disk.run ⟨some file,none,disk.log⟩ (rotation.take past) := rfl
      rw [renamed]
      cases past with
      | zero => exact ⟨rfl,Or.inl rfl⟩
      | succ past =>
        rw [run_rotation _ past]
        exact ⟨rfl,Or.inr ⟨past,rfl⟩⟩

/-- An entry as recovery at this time stores it: it could come from a file, it has not expired,
and both of its deadlines agree. -/
structure Timely (reading : Instant) (key : Bytes) (entry : Entry) : Prop where
  stored : Stored ⟨key,entry.value,entry.expiresAtWall⟩
  agrees : entry.expiresAt = entry.expiresAtWall.map (deadline reading)
  running : ∀ wall ∈ entry.expiresAtWall, reading.wallNow < wall

section recovery
variable {reading : Instant} {store next : Store config}

theorem settled_timely {key : Bytes} {value : Value} {expiryWall : Option Int} (stored : Stored ⟨key,value,expiryWall⟩) :
    ∀ entry ∈ Store.settled config key value expiryWall reading, Timely reading key entry := by
  intro entry found
  cases expiryWall with
  | none =>
    cases found
    exact ⟨stored,rfl,fun wall expires => absurd expires (Option.not_mem_none wall)⟩
  | some wall =>
    rw [Store.settled] at found
    split at found
    · cases found
    · next running =>
      cases found
      refine ⟨stored,rfl,fun other expires => ?_⟩
      cases expires
      exact Int.lt_of_not_ge running

theorem setExpiring_timely (each : store.Each (Timely reading)) {key : Bytes} {value : Value} {expiryWall : Option Int}
    (stored : Stored ⟨key,value,expiryWall⟩) : (store.setExpiring key value expiryWall reading).Each (Timely reading) :=
  each.assigned (Store.setExpiring_spec store key value expiryWall reading) (settled_timely stored)

theorem importEntries_timely (entries : List PersistedEntry) (stored : ∀ entry ∈ entries, Stored entry) (index : Nat)
    (store : Store config) (each : store.Each (Timely reading)) :
    (importEntries (fun _ => (reading,reading)) index entries store).Each (Timely reading) := by
  induction entries generalizing index store with
  | nil => exact each
  | cons entry entries ih =>
    obtain ⟨here,others⟩ := List.forall_mem_cons.mp stored
    exact ih others (index + 1) _ (setExpiring_timely each here)

theorem stored_string {key text : Bytes} (short : key.length < 2^32) (bound : text.length < 2^32) (expiry : Option Int64) :
    Stored ⟨key,.string text,expiry.map fromUnixMs⟩ := by
  refine ⟨short,bound,fun wall expires => ?_⟩
  obtain ⟨millis,_,rfl⟩ := Option.mem_map.mp expires
  exact ⟨millis,rfl⟩

theorem applyRecord_timely (each : store.Each (Timely reading)) {record : WalRecord}
    (applied : applyRecord store record reading reading = .ok next) : next.Each (Timely reading) := by
  cases applyRecord_applied applied with
  | set key value expiry keyBound valueBound => exact setExpiring_timely each (stored_string keyBound valueBound expiry)
  | del keys => exact each.delMany keys reading.now
  | expire key millis =>
    refine each.expireAt fun entry old found moved => ?_
    rw [Store.rescheduled] at moved
    split at moved
    · cases moved
    · next running =>
      cases moved
      refine ⟨⟨old.stored.key,old.stored.value,fun wall expires => ?_⟩,rfl,fun wall expires => ?_⟩
      · exact ⟨millis,(Option.mem_some_iff.mp expires).symm⟩
      · cases expires
        exact Int.lt_of_not_ge running

theorem replayRecords_timely (snapshotOffset : UInt64) (records : List WalRecord) (index : Nat) (store : Store config)
    (each : store.Each (Timely reading))
    (replayed : replayRecords (fun _ => (reading,reading)) snapshotOffset index records store = .ok next) :
    next.Each (Timely reading) := by
  induction records generalizing index store with
  | nil =>
    cases replayed
    exact each
  | cons record records ih =>
    rw [replayRecords] at replayed
    split at replayed
    · exact ih index store each replayed
    · obtain ⟨middle,applied,replayed⟩ := bind_success _ _ _ replayed
      exact ih (index + 1) middle (applyRecord_timely each applied) replayed

/-- Everything that is recovered could have come from one snapshot taken at that time. -/
theorem recovered_timely {engine : PersistenceEngine} {target : Store config}
    (recovered : engine.recovered target (fun _ => (reading,reading)) = .ok store) : store.Each (Timely reading) := by
  rw [PersistenceEngine.recovered_eq] at recovered
  obtain ⟨records,_,replayed⟩ := bind_success _ _ _ recovered
  refine replayRecords_timely _ records _ _ (importEntries_timely _ ?_ 0 _ ?_) replayed
  · unfold PersistenceEngine.loadSnapshot
    split
    · exact List.forall_mem_nil _
    · next found => exact SnapshotStore.read_stored found
  · intro key entry found
    exact absurd found (by simp [Store.clear,Store.find,Store.shardFor])

theorem Timely.live {key : Bytes} {entry : Entry} (timely : Timely reading key entry) :
    isExpired entry reading.now = false := by
  unfold isExpired
  rw [timely.agrees]
  cases expires : entry.expiresAtWall with
  | none => rfl
  | some wall =>
    have running := timely.running wall expires
    simp only [Option.map_some,deadline,decide_eq_false_iff_not]
    omega

theorem content_timely (each : store.Each (Timely reading)) (key : Bytes) :
    store.content reading.now key = (store.find key).map fun entry => (entry.value,entry.expiresAtWall) := by
  rw [Store.content]
  congr 1
  cases found : store.find key with
  | none => exact (Store.live_eq_none store key reading.now).mpr fun entry stored => by cases found.symm.trans stored
  | some entry => exact (Store.live_eq_some store key reading.now entry).mpr ⟨found,(each key entry found).live⟩

end recovery

section imported
variable {reading : Instant} {index : Nat} {entries : List PersistedEntry}

theorem importEntries_absent (key : Bytes) (absent : ∀ entry ∈ entries, entry.key ≠ key) (store : Store config) :
    (importEntries (fun _ => (reading,reading)) index entries store).find key = store.find key := by
  induction entries generalizing index store with
  | nil => rfl
  | cons entry entries ih =>
    obtain ⟨here,others⟩ := List.forall_mem_cons.mp absent
    have assigned := Store.setExpiring_spec store entry.key entry.value entry.expiryWall reading
    refine (ih others _).trans ((assigned.found key).trans ?_)
    rw [if_neg fun same => here same.symm]

theorem importEntries_member (distinct : (entries.map PersistedEntry.key).Nodup) {entry : PersistedEntry}
    (member : entry ∈ entries) (store : Store config) :
    (importEntries (fun _ => (reading,reading)) index entries store).find entry.key =
      Store.settled config entry.key entry.value entry.expiryWall reading := by
  induction entries generalizing index store with
  | nil => cases member
  | cons first entries ih =>
    rw [List.map_cons,List.nodup_cons] at distinct
    rcases List.mem_cons.mp member with rfl | later
    · have assigned := Store.setExpiring_spec store entry.key entry.value entry.expiryWall reading
      have kept := @importEntries_absent config reading (index + 1) entries entry.key
        (fun other inside same => distinct.1 (List.mem_map.mpr ⟨other,inside,same⟩))
        (store.setExpiring entry.key entry.value entry.expiryWall reading)
      exact kept.trans ((assigned.found _).trans (if_pos rfl))
    · exact ih distinct.2 later _

end imported

/-- What `snapshot_now` exports at one time is imported at another as the same content, if
that content has not expired by then. -/
theorem imported_content {live : Store config} (placed : live.Placed) (now : Int) {reading : Instant} (target : Store other)
    (running : ∀ key value wall, live.content now key = some (value,some wall) → reading.wallNow < wall)
    (index : Nat) (each : (importEntries (fun _ => (reading,reading)) index (live.exportSnapshotEntries now).1
      target.clear).Each (Timely reading)) :
    (importEntries (fun _ => (reading,reading)) index (live.exportSnapshotEntries now).1 target.clear).content reading.now =
      live.content now := by
  obtain ⟨nodup,_,members⟩ := Store.sweep_spec live placed now
  have distinct : ((live.exportSnapshotEntries now).1.map PersistedEntry.key).Nodup := by
    simpa [Store.exportSnapshotEntries,Function.comp_def] using nodup
  funext key
  rw [content_timely each,Store.content]
  cases seen : live.live key now with
  | none =>
    have absent : ∀ entry ∈ (live.exportSnapshotEntries now).1, entry.key ≠ key := by
      intro entry member same
      obtain ⟨⟨name,found⟩,listed,rfl⟩ := List.mem_map.mp member
      cases same
      cases seen.symm.trans ((members name found).mp listed)
    rw [importEntries_absent key absent]
    simp [Store.clear,Store.find,Store.shardFor]
  | some entry =>
    have member : (⟨key,entry.value,entry.expiresAtWall⟩ : PersistedEntry) ∈ (live.exportSnapshotEntries now).1 :=
      List.mem_map.mpr ⟨(key,entry),(members key entry).mpr seen,rfl⟩
    rw [importEntries_member distinct member]
    cases expires : entry.expiresAtWall with
    | none => simp [Store.settled,expires]
    | some wall =>
      have ahead := running key entry.value wall (by rw [Store.content,seen,Option.map_some,expires])
      simp [Store.settled,Int.not_le.mpr ahead,expires]

theorem scan_header (size : Nat) : (openAndRecover (header.take size)).map Prod.fst = .ok [] := by
  by_cases short : size < 16
  · rw [openAndRecover_short _ (by rw [List.length_take]; omega)]
    rfl
  · have opened := openAndRecover_log 0 [] [] (List.forall_mem_nil _) trivial empty_not_startsRecord empty_not_overlong
    change openAndRecover (headerWith 0) = _ at opened
    rw [List.take_of_length_le (by rw [header_eq,headerWith_length]; omega),header_eq,opened]
    rfl

theorem writeHeaderUnlocked_bytes (results : List WriteResult) (file : File) :
    (writeHeaderUnlocked results (file.truncate 0)).2.bytes = header.take (storedCount results header.length) := by
  have stored := writeAll_file "short write to WAL" results [] header
  have start : (file.truncate 0).seek 0 = ⟨[],([] : Bytes).length⟩ := congrArg (File.seek · 0) (truncate_zero _ _)
  rw [writeHeaderUnlocked,start]
  split
  · next written =>
    rw [written] at stored
    exact congrArg File.bytes stored
  · next written =>
    rw [written] at stored
    exact congrArg File.bytes stored

theorem truncateAfter_header (results : List WriteResult) (fsync : Bool) (wal : WalWriter) (offset : UInt64) :
    (truncateAfter results fsync wal offset).2.file.bytes = wal.file.bytes ∨
      ∃ size, (truncateAfter results fsync wal offset).2.file.bytes = header.take size := by
  have bytes := writeHeaderUnlocked_bytes results wal.file
  unfold truncateAfter
  split
  · exact Or.inl rfl
  · refine Or.inr ⟨storedCount results header.length,?_⟩
    split
    · next written =>
      rw [written] at bytes
      exact bytes
    · next written =>
      rw [written] at bytes
      dsimp only
      split <;> exact bytes

/-- Whatever its calls report, `snapshot_now` leaves files that a crash could have left. -/
theorem snapshotNow_interrupted (engine : PersistenceEngine) (io : SnapshotIo) (store : Store config) (now : Int)
    (leftover : Option Bytes) :
    Interrupted (engine.disk leftover) (engine.snapshotFile store now)
      ((engine.snapshotNow io store now).2.1.disk leftover) := by
  unfold PersistenceEngine.snapshotNow
  split
  · exact Or.inl ⟨rfl,rfl⟩
  · dsimp only
    rcases SnapshotStore.write_cases io.snapshot engine.snapshot engine.wal.lastOffset
      (store.exportSnapshotEntries now).1 with written | ⟨failure,failed⟩
    · rw [written]
      exact Or.inr ⟨rfl,truncateAfter_header io.header io.rotate engine.wal engine.wal.lastOffset⟩
    · rw [failed]
      exact Or.inl ⟨rfl,rfl⟩

/-- The new snapshot holds the content, and what the log still holds is skipped. -/
theorem renamed_restored {live : Store config} (placed : live.Placed) {now : Int} {reading : Instant} {target : Store other}
    {found : Store other} (each : found.Each (Timely reading)) (same : found.content reading.now = live.content now)
    (few : (live.exportSnapshotEntries now).1.length < 2^64) {offset : UInt64} {disk : Disk}
    (renamed : disk.snapshot = some (SnapshotStore.encode offset (live.exportSnapshotEntries now).1))
    {records : List WalRecord} (scan : (openAndRecover disk.log).map Prod.fst = .ok records)
    (below : ∀ record ∈ records, record.offset ≤ offset) :
    disk.restored target (fun _ => (reading,reading)) reading.now = .ok (live.content now) := by
  have origin : ∀ key entry, live.live key now = some entry → ∃ kept, Timely reading key kept ∧
      kept.value = entry.value ∧ kept.expiresAtWall = entry.expiresAtWall := by
    intro key entry seen
    have here := congrFun same key
    rw [content_timely each,Store.content,seen,Option.map_some] at here
    obtain ⟨kept,stored,equal⟩ := Option.map_eq_some_iff.mp here
    exact ⟨kept,each key kept stored,congrArg Prod.fst equal,congrArg Prod.snd equal⟩
  have stored : ∀ entry ∈ (live.exportSnapshotEntries now).1, Stored entry := by
    obtain ⟨_,_,members⟩ := Store.sweep_spec live placed now
    intro entry member
    obtain ⟨⟨key,listed⟩,inside,rfl⟩ := List.mem_map.mp member
    obtain ⟨kept,timely,value,expiry⟩ := origin key listed ((members key listed).mp inside)
    have fine := timely.stored
    rwa [value,expiry] at fine
  have loaded : (PersistenceEngine.new .always disk.snapshot disk.log).loadSnapshot =
      (offset,(live.exportSnapshotEntries now).1) := by
    have unchanged : (live.exportSnapshotEntries now).1.map truncated = (live.exportSnapshotEntries now).1 :=
      (List.map_congr_left fun entry member => (stored entry member).truncated).trans (List.map_id _)
    have read := SnapshotStore.read_encode offset _ few fun entry member => (stored entry member).encodable
    rw [unchanged,← renamed] at read
    have held : (PersistenceEngine.new .always disk.snapshot disk.log).snapshot = disk.snapshot := rfl
    rw [PersistenceEngine.loadSnapshot,held,read]
  have scanned : (PersistenceEngine.new .always disk.snapshot disk.log).scanned = .ok records := scan
  have empty : target.clear.Each (Timely reading) := by
    intro key entry found
    exact absurd found (by simp [Store.clear,Store.find,Store.shardFor])
  rw [Disk.restored,PersistenceEngine.restored,PersistenceEngine.recovered_eq,scanned,ok_bind,loaded,
    ← List.append_nil records,replayRecords_covered _ _ _ _ _ _ below]
  refine congrArg Except.ok (imported_content placed now target ?_ 0 (importEntries_timely _ stored 0 _ empty))
  intro key value wall seen
  obtain ⟨entry,live,equal⟩ := Option.map_eq_some_iff.mp seen
  obtain ⟨kept,timely,_,expiry⟩ := origin key entry live
  exact timely.running wall (expiry.trans (congrArg Prod.snd equal))

/-- From files that recovery turns into the live content, a crash at any point of `snapshot_now`
and any results of its calls leave files that recovery at the same time turns into it too. -/
theorem snapshot_crash_atomic (engine : PersistenceEngine) (covered : engine.Covered) (live : Store config)
    (placed : live.Placed) (now : Int) (few : (live.exportSnapshotEntries now).1.length < 2^64) (leftover : Option Bytes)
    (target : Store other) (reading : Instant)
    (same : (engine.disk leftover).restored target (fun _ => (reading,reading)) reading.now = .ok (live.content now)) :
    (∀ count, ((engine.disk leftover).run ((replacing (engine.snapshotFile live now)).take count)).restored target
      (fun _ => (reading,reading)) reading.now = .ok (live.content now)) ∧
    ∀ io, ((engine.snapshotNow io live now).2.1.disk leftover).restored target (fun _ => (reading,reading)) reading.now =
      .ok (live.content now) := by
  have kept : ∀ found, Interrupted (engine.disk leftover) (engine.snapshotFile live now) found →
      found.restored target (fun _ => (reading,reading)) reading.now = .ok (live.content now) := by
    intro found interrupted
    rcases interrupted with ⟨snapshot,log⟩ | ⟨renamed,log⟩
    · rw [Disk.restored,snapshot,log]
      exact same
    · rw [Disk.restored,PersistenceEngine.restored] at same
      rcases recovery : (PersistenceEngine.new .always (engine.disk leftover).snapshot (engine.disk leftover).log).recovered
        target (fun _ => (reading,reading)) with failure | store
      · rw [recovery] at same
        cases same
      · rw [recovery] at same
        have each := recovered_timely recovery
        have content : store.content reading.now = live.content now := Except.ok.inj same
        rw [PersistenceEngine.recovered_eq] at recovery
        obtain ⟨records,scan,_⟩ := bind_success _ _ _ recovery
        rcases log with full | ⟨size,headed⟩
        · refine renamed_restored placed each content few renamed ?_ (covered records scan)
          rw [full]
          exact scan
        · refine renamed_restored placed each content few renamed ?_ (List.forall_mem_nil _)
          rw [headed]
          exact scan_header size
  exact ⟨fun count => kept _ (crash_interrupted _ _ count),fun io => kept _ (snapshotNow_interrupted engine io live now leftover)⟩

/-- One SET has been logged and performed. -/
def noted : PersistenceEngine := ⟨.always,none,writerAt 0 [⟨1,.set,encodeSetPayload [0x6B] [0x76] none⟩] 1⟩

def performed : Store twoShards := blank.set [0x6B] (.string [0x76]) ⟨0,0⟩

theorem noted_intact : Intact noted.wal [⟨1,.set,encodeSetPayload [0x6B] [0x76] none⟩] :=
  ⟨⟨0,rfl⟩,List.forall_mem_singleton.mpr (by decide),⟨by decide,trivial⟩,UInt64.le_refl 1,by decide⟩

theorem noted_restored : noted.restored blank still 0 = .ok (performed.content 0) := by
  have before : opened.recovered blank still = .ok blank := by
    rw [PersistenceEngine.recovered_eq,opened_intact.scanned]
    rfl
  have recovery := @recovered_concat _ opened noted rfl [] 1 (.set [0x6B] [0x76]) opened_intact.scanned noted_intact.scanned
    (by unfold Logged.Short; decide) blank still
  rw [before,ok_bind,if_neg (by decide)] at recovery
  rw [PersistenceEngine.restored,recovery]
  rfl

theorem snapshot_crash_atomic_noted :
    (∀ count, ((noted.disk none).run ((replacing (noted.snapshotFile performed 0)).take count)).restored blank still 0 =
      .ok (performed.content 0)) ∧
    ∀ io, ((noted.snapshotNow io performed 0).2.1.disk none).restored blank still 0 = .ok (performed.content 0) :=
  snapshot_crash_atomic noted noted_intact.covers performed
    ((Store.setExpiring_spec blank [0x6B] (.string [0x76]) none ⟨0,0⟩).placed Store.placed_empty) 0 (by decide +kernel) none
    blank ⟨0,0⟩ ((disk_restored noted none blank still 0).trans noted_restored)

end NovaCache.Persistence
