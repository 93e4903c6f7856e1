import NovaCache.Persistence.Durability

/-! The snapshot and the log together. A snapshot covers the first records of the log, until the
log is emptied; what counts is the snapshot and the records behind it. A crash may leave a part
of a record, or of the header of a log that was being emptied. -/
namespace NovaCache.Persistence
open WalWriter
variable {config : StoreConfig}

theorem offset_recordsFrom {base : UInt64} {ops : List (WalOpcode × Bytes)}
    (room : base.toNat + ops.length < 2^64) :
    ∀ record ∈ recordsFrom base ops, record.offset.toNat ≤ base.toNat + ops.length := by
  induction ops generalizing base with
  | nil => exact List.forall_mem_nil _
  | cons op ops ih =>
    rw [List.length_cons] at room ⊢
    have next := offset_succ base (by omega)
    refine List.forall_mem_cons.mpr ⟨?_,fun record member => ?_⟩
    · change (base + 1).toNat ≤ _
      omega
    · have below := ih (by omega) record member
      omega

/-- What the files amount to: the records that the snapshot covers, and what counts, which is
the snapshot with the records behind it. -/
structure Balance where
  base : UInt64
  covered : List Logged
  acknowledged : Acknowledged
  keys : Finset Bytes
  used : Nat

namespace Balance

def records (balance : Balance) : List Logged := balance.covered ++ balance.acknowledged.pending

def header (balance : Balance) : UInt64 := balance.base + UInt64.ofNat balance.covered.length

def last (balance : Balance) : UInt64 := balance.base + UInt64.ofNat balance.records.length

structure Holds (balance : Balance) (snapshot : Option Bytes) : Prop where
  snapshot : SnapshotHolds snapshot balance.header balance.acknowledged.saved
  savable : Savable balance.keys balance.acknowledged.saved
  short : ∀ logged ∈ balance.records, logged.Short
  named : ∀ logged ∈ balance.acknowledged.pending, logged.Within balance.keys
  room : balance.base.toNat + balance.records.length ≤ balance.used
  few : balance.keys.card ≤ balance.used

structure Books (balance : Balance) (engine : PersistenceEngine) : Prop where
  holds : balance.Holds engine.snapshot
  wal : engine.wal = writerAt 0 (logOf balance.base balance.records) balance.last

/-- A log that is too short for its header is begun anew; a torn record at its end is dropped. -/
structure Rests (balance : Balance) (directory : Directory) : Prop where
  holds : balance.Holds directory.snapshot
  log : directory.log.length < 16 ∧ balance.records = [] ∨ ∃ tail,
    directory.log = headerWith 0 ++ (encodeLog (logOf balance.base balance.records) ++ tail) ∧ ¬ StartsRecord tail ∧
      ¬ Overlong tail

/-- One more mutation. -/
def log (balance : Balance) (logged : Logged) : Balance where
  base := balance.base
  covered := balance.covered
  acknowledged := ⟨balance.acknowledged.saved,balance.acknowledged.pending ++ [logged]⟩
  keys := logged.grow balance.keys
  used := balance.used + 1

/-- A snapshot that covers the whole log. -/
def save (balance : Balance) (saved : List PersistedEntry) : Balance :=
  {balance with covered := balance.records, acknowledged := ⟨saved,[]⟩}

/-- The log is emptied. -/
def empty (balance : Balance) : Balance := {balance with base := balance.last, covered := []}

theorem records_log (balance : Balance) (logged : Logged) : (balance.log logged).records = balance.records ++ [logged] :=
  (List.append_assoc ..).symm

theorem last_log (balance : Balance) (logged : Logged) : (balance.log logged).last = balance.last + 1 := by
  unfold last
  rw [records_log,List.length_append,UInt64.ofNat_add,← UInt64.add_assoc]
  rfl

theorem records_save (balance : Balance) (saved : List PersistedEntry) : (balance.save saved).records = balance.records :=
  List.append_nil _

theorem last_save (balance : Balance) (saved : List PersistedEntry) : (balance.save saved).last = balance.last := by
  unfold last
  rw [records_save]
  rfl

theorem toNat_last {balance : Balance} {snapshot : Option Bytes} (holds : balance.Holds snapshot) (room : balance.used < 2^64) :
    balance.last.toNat = balance.base.toNat + balance.records.length := by
  have bound := holds.room
  rw [last,UInt64.toNat_add,UInt64.toNat_ofNat',Nat.add_mod_mod,Nat.mod_eq_of_lt (by omega)]

theorem Holds.log {balance : Balance} {snapshot : Option Bytes} (holds : balance.Holds snapshot) {logged : Logged}
    (short : logged.Short) : (balance.log logged).Holds snapshot where
  snapshot := holds.snapshot
  savable := ⟨holds.savable.distinct,fun entry member => (holds.savable.fine entry member).grow (logged.subset_grow _)⟩
  short := by
    rw [records_log]
    exact List.forall_mem_append.mpr ⟨holds.short,List.forall_mem_singleton.mpr short⟩
  named := by
    refine List.forall_mem_append.mpr ⟨fun other member => ?_,List.forall_mem_singleton.mpr (logged.within_grow _)⟩
    exact (holds.named other member).mono (logged.subset_grow _)
  room := by
    rw [records_log,List.length_append]
    exact Nat.succ_le_succ holds.room
  few := le_trans (logged.card_grow _) (Nat.succ_le_succ holds.few)

theorem Holds.save {balance : Balance} {snapshot : Option Bytes} (holds : balance.Holds snapshot)
    {saved : List PersistedEntry} (savable : Savable balance.keys saved) :
    (balance.save saved).Holds (some (SnapshotStore.encode balance.last saved)) where
  snapshot := .inr rfl
  savable := savable
  short := by
    rw [records_save]
    exact holds.short
  named := List.forall_mem_nil _
  room := by
    rw [records_save]
    exact holds.room
  few := holds.few

theorem Holds.empty {balance : Balance} {snapshot : Option Bytes} (holds : balance.Holds snapshot)
    (none : balance.acknowledged.pending = []) (room : balance.used < 2^64) : balance.empty.Holds snapshot where
  snapshot := by
    have same : balance.empty.header = balance.header := by
      change balance.last + 0 = balance.header
      rw [UInt64.add_zero,last,header,records,none,List.append_nil]
    rw [same]
    exact holds.snapshot
  savable := holds.savable
  short := by
    rw [records,show balance.empty.acknowledged.pending = [] from none]
    exact List.forall_mem_nil _
  named := holds.named
  room := by
    rw [records,show balance.empty.acknowledged.pending = [] from none]
    exact le_of_eq_of_le (toNat_last holds room) holds.room
  few := holds.few

theorem Holds.load {balance : Balance} {engine : PersistenceEngine} (holds : balance.Holds engine.snapshot)
    (room : balance.used < 2^64) : engine.loadSnapshot = (balance.header,balance.acknowledged.saved) := by
  rw [PersistenceEngine.loadSnapshot]
  rcases holds.snapshot with ⟨absent,zero,empty⟩ | present
  · rw [absent,zero,empty]
    rfl
  · rw [present,holds.savable.read (lt_of_le_of_lt holds.few room)]

theorem Holds.replayed {balance : Balance} {snapshot : Option Bytes} (holds : balance.Holds snapshot)
    (room : balance.used < 2^64) (clock : RecoveryClock) (index : Nat) (store : Store config) :
    replayRecords clock balance.header index (logOf balance.base balance.records) store =
      .ok (replayLogged clock index balance.acknowledged.pending store) := by
  have bound := holds.room
  have split : logOf balance.base balance.records =
      logOf balance.base balance.covered ++ logOf balance.header balance.acknowledged.pending := by
    rw [logOf,records,List.map_append,recordsFrom_append,List.length_map]
    rfl
  rw [records,List.length_append] at bound
  have header : balance.header.toNat = balance.base.toNat + balance.covered.length := by
    rw [Balance.header,UInt64.toNat_add,UInt64.toNat_ofNat',Nat.add_mod_mod,Nat.mod_eq_of_lt (by omega)]
  rw [split,replayRecords_covered]
  · refine replayRecords_logOf clock _ _ _ index store (UInt64.le_refl _) (by omega) fun logged member => ?_
    exact holds.short logged (List.mem_append_right _ member)
  · intro record member
    rw [UInt64.le_iff_toNat_le,header]
    have below := offset_recordsFrom (by rw [List.length_map]; omega) record member
    rwa [List.length_map] at below

theorem Rests.opened {balance : Balance} {directory : Directory} (rests : balance.Rests directory)
    (room : balance.used < 2^64) : WalWriter.openAndRecover directory.log =
      .ok (logOf balance.base balance.records,writerAt 0 (logOf balance.base balance.records)
        (lastOffsetOf 0 (logOf balance.base balance.records))) := by
  have bound := rests.holds.room
  rcases rests.log with ⟨short,none⟩ | ⟨tail,log,absent,fair⟩
  · rw [openAndRecover_short directory.log short,none,freshWriter_eq]
    rfl
  · rw [log,openAndRecover_log 0 _ tail ?_ ?_ absent fair]
    · refine (bodyLength_recordsFrom _ _ _).mpr fun op member => ?_
      obtain ⟨logged,inside,rfl⟩ := List.mem_map.mp member
      have fits : logged.payload.length + 18 < 2^32 := rests.holds.short logged inside
      dsimp only
      omega
    · refine recordsFrom_increasing 0 _ _ (UInt64.le_iff_toNat_le.mpr (Nat.zero_le _)) ?_
      rw [List.length_map]
      omega

/-- Recovery restores what counts. -/
theorem Rests.reopened {balance : Balance} {directory : Directory} (rests : balance.Rests directory)
    (room : balance.used < 2^64) (fsync : FsyncMode) (clock : RecoveryClock) :
    (PersistenceEngine.new fsync directory.snapshot directory.log).recoverInto (Store.empty : Store config) clock =
      .ok (⟨fsync,directory.snapshot,writerAt 0 (logOf balance.base balance.records)
        (lastOffsetOf 0 (logOf balance.base balance.records))⟩,balance.acknowledged.restored config clock) := by
  have loaded : (PersistenceEngine.new fsync directory.snapshot directory.log).loadSnapshot = _ := rests.holds.load room
  rw [PersistenceEngine.recoverInto,loaded]
  simp only [PersistenceEngine.new,rests.opened room,ok_bind,rests.holds.replayed room]
  rfl

/-- If the log has not fallen behind the snapshot, the files stay in balance. -/
theorem Rests.recovered {balance : Balance} {directory : Directory} (rests : balance.Rests directory)
    (room : balance.used < 2^64) (fsync : FsyncMode) (clock : RecoveryClock) :
    ∃ engine, (PersistenceEngine.new fsync directory.snapshot directory.log).recoverInto (Store.empty : Store config) clock =
        .ok (engine,balance.acknowledged.restored config clock) ∧
      (engine.loadSnapshot.1 ≤ engine.wal.lastOffset → ∃ next : Balance, next.Books engine ∧
        next.acknowledged = balance.acknowledged ∧ next.keys = balance.keys ∧ next.used = balance.used) := by
  refine ⟨_,rests.reopened room fsync clock,fun ahead => ⟨balance,⟨rests.holds,?_⟩,rfl,rfl,rfl⟩⟩
  change writerAt 0 _ (lastOffsetOf 0 (logOf balance.base balance.records)) = _
  by_cases none : balance.records = []
  · obtain ⟨uncovered,_⟩ := List.append_eq_nil_iff.mp none
    have header : balance.header = balance.base := by
      rw [header,uncovered]
      exact UInt64.add_zero _
    have zero : balance.base = 0 := by
      rw [Holds.load rests.holds room,none,header] at ahead
      exact UInt64.le_zero_iff.mp ahead
    rw [none,Balance.last,none,zero]
    rfl
  · rw [lastOffsetOf_logOf,if_neg none]
    rfl

theorem Holds.kept {balance : Balance} {snapshot : Option Bytes} (holds : balance.Holds snapshot) (clock : RecoveryClock) :
    Kept balance.keys (balance.acknowledged.restored config clock) := by
  refine .replay clock _ _ _ (.import clock _ 0 _ (kept_empty _) holds.savable.fine) fun logged member => ?_
  exact ⟨holds.short logged (List.mem_append_right _ member),holds.named logged member⟩

theorem Books.bytes {balance : Balance} {engine : PersistenceEngine} (books : balance.Books engine) :
    engine.wal.file.bytes = headerWith 0 ++ encodeLog (logOf balance.base balance.records) := by
  rw [books.wal]
  rfl

theorem Books.rests {balance : Balance} {engine : PersistenceEngine} (books : balance.Books engine) :
    balance.Rests ⟨engine.snapshot,engine.wal.file.bytes⟩ :=
  ⟨books.holds,.inr ⟨[],by rw [books.bytes,List.append_nil],empty_not_startsRecord,
    empty_not_overlong⟩⟩

/-- A log with nothing but its header may be found with a part of it. -/
theorem Books.begun {balance : Balance} {engine : PersistenceEngine} (books : balance.Books engine)
    (empty : engine.wal.file.bytes = headerWith 0) (count : Nat) :
    balance.Rests ⟨engine.snapshot,(headerWith 0).take count⟩ := by
  by_cases short : count < 16
  · refine ⟨books.holds,.inl ⟨lt_of_le_of_lt (List.length_take_le ..) short,?_⟩⟩
    have none : encodeLog (logOf balance.base balance.records) = [] := by
      rw [books.bytes] at empty
      exact List.append_right_eq_self.mp empty
    cases found : balance.records with
    | nil => rfl
    | cons logged rest =>
      rw [found] at none
      simp [logOf,recordsFrom,encodeLog,encodeRecord_ne_nil] at none
  · have whole : (headerWith 0).take count = engine.wal.file.bytes := by
      rw [empty,List.take_of_length_le (by rw [headerWith_length]; omega)]
    rw [whole]
    exact books.rests

/-- A part of one more record. -/
theorem Books.torn {balance : Balance} {engine after : PersistenceEngine} {logged : Logged} (books : balance.Books engine)
    (further : (balance.log logged).Books after) (same : after.snapshot = engine.snapshot) (count : Nat) :
    ∃ found, (found = balance ∨ found = balance.log logged) ∧
      found.Rests ⟨engine.snapshot,after.wal.file.bytes.take (engine.wal.file.bytes.length + count)⟩ := by
  have grown : after.wal.file.bytes = engine.wal.file.bytes ++
      encodeRecord ⟨balance.last + 1,logged.opcode,logged.payload⟩ := by
    rw [further.bytes,books.bytes,records_log,logOf_append,encodeLog_append]
    simp [encodeLog,Balance.log,Balance.last]
  have bound : bodyLength ⟨balance.last + 1,logged.opcode,logged.payload⟩ < 2^32 - 4 := by
    have fits : logged.payload.length + 18 < 2^32 :=
      further.holds.short logged (by rw [records_log]; exact List.mem_append_right _ (List.mem_singleton_self _))
    change logged.payload.length + 10 < _
    omega
  rw [grown,List.take_length_add_append]
  by_cases partly : count < (encodeRecord ⟨balance.last + 1,logged.opcode,logged.payload⟩).length
  · refine ⟨balance,.inl rfl,books.holds,.inr ⟨_,?_,torn_not_startsRecord _ count (by omega) partly,
      torn_not_overlong _ count bound⟩⟩
    rw [books.bytes,List.append_assoc]
  · rw [List.take_of_length_le (Nat.le_of_not_lt partly),← grown,← same]
    exact ⟨_,.inr rfl,further.rests⟩

end Balance

end NovaCache.Persistence
