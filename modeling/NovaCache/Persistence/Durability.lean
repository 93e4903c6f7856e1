import NovaCache.Persistence.Engine
import NovaCache.Persistence.SnapshotFile
import NovaCache.Store.Loops

/-! Durability over any number of sessions. Each session recovers from the directory,
performs durable mutations and snapshots, and ends by a shutdown or by a crash. -/
namespace NovaCache.Persistence
open WalWriter ExpiringMap
variable {config : StoreConfig}

structure Directory where
  snapshot : Option Bytes
  log : Bytes

inductive Action
  | mutate (mutation : Mutation) (io : Io) (wallNow : Int) (first second : Instant)
  | snapshot (io : SnapshotIo) (now : Int)

inductive Ending
  | shutdown (io : SnapshotIo) (now : Int)
  | crash

structure Session where
  fsync : FsyncMode
  clock : RecoveryClock
  actions : List Action
  ending : Ending

/-- What has been acknowledged: the entries of the last snapshot, and the mutations since. -/
structure Acknowledged where
  saved : List PersistedEntry
  pending : List Logged

structure Process (config : StoreConfig) where
  engine : PersistenceEngine
  store : Store config
  acknowledged : Acknowledged

namespace Process

/-- A snapshot that was written holds everything acknowledged. -/
def saved (process : Process config) (now : Int) :
    Except Failure Unit × PersistenceEngine × Store config → Except Failure (Process config)
  | (.error failure,_,_) => .error failure
  | (.ok (),engine,store) => .ok ⟨engine,store,⟨(process.store.exportSnapshotEntries now).1,[]⟩⟩

def act (process : Process config) : Action → Except Failure (Process config)
  | .mutate mutation io wallNow first second =>
    match process.engine.perform io process.store mutation wallNow first second with
    | (.error failure,_,_) => .error failure
    | (.ok (),engine,store) => .ok ⟨engine,store,
        {process.acknowledged with pending := process.acknowledged.pending ++ [mutation.logged wallNow]}⟩
  | .snapshot io now => process.saved now (process.engine.snapshotNow io process.store now)

def close (process : Process config) : Ending → Except Failure (Process config)
  | .shutdown io now => process.saved now (process.engine.shutdown io process.store now)
  | .crash => .ok process

def directory (process : Process config) : Directory := ⟨process.engine.snapshot,process.engine.wal.file.bytes⟩

/-- The offset up to which the next recovery skips the records of the log. -/
def snapshotOffset (process : Process config) : UInt64 := process.engine.loadSnapshot.1

end Process

def Action.mutates : Action → Bool
  | .mutate _ _ _ _ _ => true
  | .snapshot _ _ => false

/-- A run in which every record is appended above the snapshot on disk. -/
inductive Acts : Process config → List Action → Process config → Prop
  | done (process : Process config) : Acts process [] process
  | step (process next final : Process config) (action : Action) (actions : List Action)
      (performed : process.act action = .ok next)
      (above : action.mutates = true → process.snapshotOffset < next.engine.wal.lastOffset)
      (rest : Acts next actions final) : Acts process (action::actions) final

def replayLogged (clock : RecoveryClock) : Nat → List Logged → Store config → Store config
  | _, [], store => store
  | index, logged::rest, store =>
    replayLogged clock (index + 1) rest (logged.apply store (clock index).1 (clock index).2)

def Acknowledged.restored (acknowledged : Acknowledged) (config : StoreConfig) (clock : RecoveryClock) : Store config :=
  replayLogged clock acknowledged.saved.length acknowledged.pending
    (importEntries clock 0 acknowledged.saved Store.empty)

/-- Every recovery restores everything acknowledged, and no record is appended at an
offset that the snapshot on disk makes the next recovery skip. -/
def Durable (config : StoreConfig) : List Session → Directory → Acknowledged → Prop
  | [], _, _ => True
  | session::history, directory, acknowledged =>
    ∃ engine, ∃ final closed : Process config,
      (PersistenceEngine.new session.fsync directory.snapshot directory.log).recoverInto (Store.empty : Store config)
        session.clock = .ok (engine,acknowledged.restored config session.clock) ∧
      Acts ⟨engine,acknowledged.restored config session.clock,acknowledged⟩ session.actions final ∧
      final.close session.ending = .ok closed ∧ Durable config history closed.directory closed.acknowledged

structure SnapshotIo.Faultless (io : SnapshotIo) : Prop where
  sync : io.sync = true
  writes : Quiet io.snapshot.writes
  fsync : io.snapshot.fsync = true
  close : io.snapshot.close = true
  rename : io.snapshot.rename = true
  header : Quiet io.header
  rotate : io.rotate = true

def Action.Fine : Action → Prop
  | .mutate mutation io wallNow _ _ => io.Faultless ∧ (mutation.logged wallNow).Short
  | .snapshot io _ => io.Faultless

def Ending.Fine : Ending → Prop
  | .shutdown io _ => io.Faultless
  | .crash => True

def Session.Fine (session : Session) : Prop := (∀ action ∈ session.actions, action.Fine) ∧ session.ending.Fine

def mutations (history : List Session) : Nat :=
  (history.map (fun session => session.actions.countP Action.mutates)).sum

/-- The offsets alone: the last one given out, the one in the snapshot on disk, and how
many records the log holds. -/
structure Ledger where
  last : Nat
  header : Nat
  records : Nat
  deriving DecidableEq, Repr

namespace Ledger

def recover (ledger : Ledger) : Ledger := {ledger with last := if ledger.records = 0 then 0 else ledger.last}

def save (ledger : Ledger) : Ledger := ⟨ledger.last,ledger.last,0⟩

def act (ledger : Ledger) : Action → Ledger
  | .mutate _ _ _ _ _ => ⟨ledger.last + 1,ledger.header,ledger.records + 1⟩
  | .snapshot _ _ => ledger.save

def close (ledger : Ledger) : Ending → Ledger
  | .shutdown _ _ => ledger.save
  | .crash => ledger

/-- Mutations happen only while the last offset has not fallen behind the snapshot. -/
def Ahead : Ledger → List Action → Prop
  | _, [] => True
  | ledger, action::actions =>
    (action.mutates = true → ledger.header ≤ ledger.last) ∧ (ledger.act action).Ahead actions

def AheadAlways : Ledger → List Session → Prop
  | _, [] => True
  | ledger, session::history =>
    ledger.recover.Ahead session.actions ∧
      ((session.actions.foldl act ledger.recover).close session.ending).AheadAlways history

end Ledger

structure Persistable (keys : Finset Bytes) (key : Bytes) (value : Value) (expiry : Option Int) : Prop where
  named : key ∈ keys
  short : key.length < 2^32
  text : ∃ text, value = .string text ∧ text.length < 2^32
  millis : ∀ wall ∈ expiry, ∃ millis, wall = fromUnixMs millis

structure Kept (keys : Finset Bytes) (store : Store config) : Prop where
  placed : store.Placed
  found : ∀ key entry, store.find key = some entry → Persistable keys key entry.value entry.expiresAtWall

def Logged.Within (logged : Logged) (keys : Finset Bytes) : Prop :=
  match logged with
  | .set key _ => key ∈ keys
  | _ => True

theorem Persistable.grow {keys more : Finset Bytes} {key : Bytes} {value : Value} {expiry : Option Int}
    (persistable : Persistable keys key value expiry) (sub : keys ⊆ more) : Persistable more key value expiry :=
  {persistable with named := sub persistable.named}

theorem Kept.grow {keys more : Finset Bytes} {store : Store config} (kept : Kept keys store) (sub : keys ⊆ more) :
    Kept more store :=
  ⟨kept.placed,fun key entry found => (kept.found key entry found).grow sub⟩

theorem Kept.trimmed {keys : Finset Bytes} {now : Int} {store next : Store config} (kept : Kept keys store)
    (trimmed : store.Trimmed now next) : Kept keys next :=
  ⟨trimmed.placed kept.placed,Store.Each.trimmed kept.found trimmed⟩

theorem Kept.assigned {keys : Finset Bytes} {store next : Store config} {key : Bytes} {entry : Option Entry}
    (kept : Kept keys store) (assigned : store.Assigned key entry next)
    (fresh : ∀ found ∈ entry, Persistable keys key found.value found.expiresAtWall) : Kept keys next :=
  ⟨assigned.placed kept.placed,Store.Each.assigned kept.found assigned fresh⟩

theorem Kept.logged {keys : Finset Bytes} {store : Store config} (kept : Kept keys store) (logged : Logged)
    (short : logged.Short) (named : logged.Within keys) (first second : Instant) :
    Kept keys (logged.apply store first second) := by
  cases logged with
  | set key value =>
    have bound : (encodeSetPayload key value none).length + 18 < 2^32 := short
    rw [length_encodeSetPayload] at bound
    refine kept.assigned (Store.setExpiring_spec store key (.string value) none first) fun found same => ?_
    cases same
    exact ⟨named,by omega,⟨value,rfl,by omega⟩,by simp⟩
  | del keys' =>
    obtain ⟨_,placed,_⟩ := Store.delMany_spec store keys' first.now
    exact ⟨placed kept.placed,Store.Each.delMany kept.found keys' first.now⟩
  | expire key millis =>
    obtain ⟨_,middle,trimmed,assigned⟩ := Store.expireAt_spec store key (some (fromUnixMs millis)) first second
    refine ⟨assigned.placed (trimmed.placed kept.placed),Store.Each.expireAt kept.found fun entry old found moved => ?_⟩
    rw [Store.rescheduled] at moved
    split at moved
    · cases moved
    · cases moved
      exact {old with millis := fun wall expiry => ⟨millis,(Option.mem_some_iff.mp expiry).symm⟩}

theorem Kept.replay {keys : Finset Bytes} (clock : RecoveryClock) (pending : List Logged) (index : Nat)
    (store : Store config) (kept : Kept keys store) (fine : ∀ logged ∈ pending, logged.Short ∧ logged.Within keys) :
    Kept keys (replayLogged clock index pending store) := by
  induction pending generalizing index store with
  | nil => exact kept
  | cons logged pending ih =>
    obtain ⟨⟨short,named⟩,others⟩ := List.forall_mem_cons.mp fine
    exact ih (index + 1) _ (kept.logged logged short named _ _) others

theorem Kept.import {keys : Finset Bytes} (clock : RecoveryClock) (entries : List PersistedEntry) (index : Nat)
    (store : Store config) (kept : Kept keys store)
    (fine : ∀ entry ∈ entries, Persistable keys entry.key entry.value entry.expiryWall) :
    Kept keys (importEntries clock index entries store) := by
  induction entries generalizing index store with
  | nil => exact kept
  | cons entry entries ih =>
    obtain ⟨here,others⟩ := List.forall_mem_cons.mp fine
    refine ih (index + 1) _ (kept.assigned (Store.setExpiring_spec store _ _ _ _) fun found same => ?_) others
    cases expiry : entry.expiryWall with
    | none =>
      simp only [expiry,Store.settled,Option.mem_some_iff] at same
      cases same
      exact {here with millis := by simp}
    | some wall =>
      simp only [expiry,Store.settled] at same
      split at same
      · cases same
      · cases same
        exact {here with millis := fun other member => here.millis other (by rwa [expiry])}

theorem kept_empty (keys : Finset Bytes) : Kept keys (Store.empty : Store config) :=
  ⟨Store.placed_empty,fun _ _ found => by cases found⟩

theorem Persistable.encodable {keys : Finset Bytes} {entry : PersistedEntry}
    (persistable : Persistable keys entry.key entry.value entry.expiryWall) :
    EncodableEntry entry ∧ truncated entry = entry := by
  obtain ⟨text,string,length⟩ := persistable.text
  have stored : Stored entry := ⟨persistable.short,by rw [string]; exact length,persistable.millis⟩
  exact ⟨stored.encodable,stored.truncated⟩

structure Savable (keys : Finset Bytes) (entries : List PersistedEntry) : Prop where
  distinct : (entries.map PersistedEntry.key).Nodup
  fine : ∀ entry ∈ entries, Persistable keys entry.key entry.value entry.expiryWall

theorem Savable.length {keys : Finset Bytes} {entries : List PersistedEntry} (savable : Savable keys entries) :
    entries.length ≤ keys.card := by
  have sub : (entries.map PersistedEntry.key).toFinset ⊆ keys := by
    intro key member
    obtain ⟨entry,inside,rfl⟩ := List.mem_map.mp (List.mem_toFinset.mp member)
    exact (savable.fine entry inside).named
  have size := Finset.card_le_card sub
  rwa [List.toFinset_card_of_nodup savable.distinct,List.length_map] at size

theorem Savable.read {keys : Finset Bytes} {entries : List PersistedEntry} (savable : Savable keys entries)
    (room : keys.card < 2^64) (offset : UInt64) :
    SnapshotStore.read (some (SnapshotStore.encode offset entries)) =
      some (⟨offset,UInt64.ofNat entries.length⟩,entries) := by
  have unchanged : entries.map truncated = entries :=
    (List.map_congr_left fun entry member => (savable.fine entry member).encodable.2).trans (List.map_id entries)
  rw [SnapshotStore.read_encode offset entries (lt_of_le_of_lt savable.length room)
    (fun entry member => (savable.fine entry member).encodable.1),unchanged]

theorem Kept.export {keys : Finset Bytes} {store : Store config} (kept : Kept keys store) (now : Int) :
    Savable keys (store.exportSnapshotEntries now).1 ∧ Kept keys (store.exportSnapshotEntries now).2 := by
  obtain ⟨nodup,trimmed,members⟩ := Store.sweep_spec store kept.placed now
  refine ⟨⟨?_,fun entry member => ?_⟩,kept.trimmed trimmed⟩
  · simpa [Store.exportSnapshotEntries,Function.comp_def] using nodup
  · obtain ⟨⟨key,found⟩,listed,rfl⟩ := List.mem_map.mp member
    exact kept.found key found ((Store.live_eq_some store key now found).mp ((members key found).mp listed)).1

theorem writeAll_whole (message : String) (results : List WriteResult) (quiet : Quiet results) (content bytes : Bytes) :
    writeAll message results ⟨content,content.length⟩ bytes = (.ok (),⟨content ++ bytes,(content ++ bytes).length⟩) := by
  have returned := writeAll_quiet message results quiet ⟨content,content.length⟩ bytes
  obtain ⟨file,whole⟩ := writeAll_stored message results content bytes
  have stored := whole.mp returned
  rw [stored,List.take_length] at file
  refine Prod.ext returned (file.trans ?_)
  rw [List.length_append]

theorem append_quiet (results : List WriteResult) (quiet : Quiet results) (records : List WalRecord) (last : UInt64)
    (opcode : WalOpcode) (payload : Bytes) :
    append results (writerAt 0 records last) opcode payload =
      (.ok (last + 1),writerAt 0 (records ++ [⟨last + 1,opcode,payload⟩]) (last + 1)) := by
  rw [writerAt_eq,writerAt_eq,append,if_neg (by simp [writerEnd])]
  dsimp only [writerEnd]
  rw [writeAll_whole _ results quiet]
  simp [encodeLog]

theorem writeHeaderUnlocked_quiet (results : List WriteResult) (quiet : Quiet results) (position : Nat) :
    writeHeaderUnlocked results ⟨[],position⟩ = (.ok (),⟨header,16⟩) := by
  have start : (⟨[],position⟩ : File).seek 0 = ⟨[],([] : Bytes).length⟩ := rfl
  rw [writeHeaderUnlocked,start,writeAll_whole _ results quiet]
  rfl

theorem truncateAfter_quiet (results : List WriteResult) (quiet : Quiet results) (writer : WalWriter)
    (opened : writer.isOpen = true) (offset : UInt64) :
    truncateAfter results true writer offset = (.ok (),writerAt 0 [] offset) := by
  obtain ⟨⟨bytes,position⟩,isOpen,lastOffset⟩ := writer
  obtain rfl : isOpen = true := opened
  rw [truncateAfter,if_neg (by simp),truncate_zero,writeHeaderUnlocked_quiet results quiet,← freshWriter_eq]
  rfl

theorem write_quiet (io : SnapshotIo) (faultless : io.Faultless) (current : Option Bytes) (offset : UInt64)
    (entries : List PersistedEntry) :
    SnapshotStore.write io.snapshot current offset entries = (.ok (),some (SnapshotStore.encode offset entries)) := by
  have written := writeAll_whole "short write to snapshot" io.snapshot.writes faultless.writes []
    (SnapshotStore.encode offset entries)
  rw [SnapshotStore.write,show (⟨[],0⟩ : File) = ⟨[],[].length⟩ from rfl,written]
  simp [faultless.fsync,faultless.close,faultless.rename]

theorem snapshotNow_quiet (engine : PersistenceEngine) (opened : engine.wal.isOpen = true) (io : SnapshotIo)
    (faultless : io.Faultless) (store : Store config) (now : Int) :
    engine.snapshotNow io store now = (.ok (),{engine with
      snapshot := some (SnapshotStore.encode engine.wal.lastOffset (store.exportSnapshotEntries now).1)
      wal := writerAt 0 [] engine.wal.lastOffset},(store.exportSnapshotEntries now).2) := by
  have synced : (if engine.fsync ≠ .none then engine.wal.sync io.sync else .ok ()) = .ok () := by
    simp [WalWriter.sync,opened,faultless.sync]
  rw [PersistenceEngine.snapshotNow,synced]
  dsimp only
  rw [write_quiet io faultless]
  dsimp only
  rw [faultless.rotate,truncateAfter_quiet io.header faultless.header _ opened]

def logOf (base : UInt64) (pending : List Logged) : List WalRecord :=
  recordsFrom base (pending.map fun logged => (logged.opcode,logged.payload))

theorem logOf_append (base : UInt64) (pending : List Logged) (logged : Logged) :
    logOf base (pending ++ [logged]) =
      logOf base pending ++ [⟨base + UInt64.ofNat pending.length + 1,logged.opcode,logged.payload⟩] := by
  rw [logOf,List.map_append,recordsFrom_append,List.length_map]
  rfl

theorem lastOffsetOf_logOf (base : UInt64) (pending : List Logged) :
    lastOffsetOf 0 (logOf base pending) = if pending = [] then 0 else base + UInt64.ofNat pending.length := by
  cases pending with
  | nil => rfl
  | cons logged rest =>
    rw [if_neg (List.cons_ne_nil _ _)]
    have last := lastOffsetOf_recordsFrom base ((logged::rest).map fun logged => (logged.opcode,logged.payload))
    rw [List.length_map,List.map_cons,recordsFrom,lastOffsetOf_cons] at last
    rw [logOf,List.map_cons,recordsFrom,lastOffsetOf_cons]
    exact last

theorem openAndRecover_logOf (base : UInt64) (pending : List Logged) (short : ∀ logged ∈ pending, logged.Short)
    (room : base.toNat + pending.length < 2^64) :
    openAndRecover (headerWith 0 ++ encodeLog (logOf base pending)) =
      .ok (logOf base pending,writerAt 0 (logOf base pending) (lastOffsetOf 0 (logOf base pending))) := by
  have fits : ∀ record ∈ logOf base pending, bodyLength record < 2^32 - 8 := by
    refine (bodyLength_recordsFrom base _ _).mpr fun op member => ?_
    obtain ⟨logged,inside,rfl⟩ := List.mem_map.mp member
    have bound : logged.payload.length + 18 < 2^32 := short logged inside
    dsimp only
    omega
  have increasing : Increasing 0 (logOf base pending) :=
    recordsFrom_increasing 0 base _ (UInt64.le_iff_toNat_le.mpr (Nat.zero_le _)) (by rwa [List.length_map])
  have recovered := openAndRecover_log 0 (logOf base pending) [] fits increasing empty_not_startsRecord empty_not_overlong
  rwa [List.append_nil] at recovered

theorem replayRecords_logOf (clock : RecoveryClock) (header base : UInt64) (pending : List Logged) (index : Nat)
    (store : Store config) (ahead : header ≤ base) (room : base.toNat + pending.length < 2^64)
    (short : ∀ logged ∈ pending, logged.Short) :
    replayRecords clock header index (logOf base pending) store = .ok (replayLogged clock index pending store) := by
  induction pending generalizing base index store with
  | nil => rfl
  | cons logged rest ih =>
    obtain ⟨here,others⟩ := List.forall_mem_cons.mp short
    rw [List.length_cons] at room
    have next := offset_succ base (by omega)
    have order := UInt64.le_iff_toNat_le.mp ahead
    have above : ¬ base + 1 ≤ header := by
      rw [UInt64.le_iff_toNat_le]
      omega
    rw [logOf,List.map_cons,recordsFrom,replayRecords,if_neg above,applyRecord_logged store _ logged _ _ here,ok_bind]
    exact ih (base + 1) (index + 1) _ (UInt64.le_iff_toNat_le.mpr (by omega)) (by omega) others

def SnapshotHolds (snapshot : Option Bytes) (offset : UInt64) (saved : List PersistedEntry) : Prop :=
  snapshot = none ∧ offset = 0 ∧ saved = [] ∨ snapshot = some (SnapshotStore.encode offset saved)

structure Account where
  keys : Finset Bytes
  base : UInt64
  header : UInt64

structure Booked (account : Account) (ledger : Ledger) (used : Nat) (snapshot : Option Bytes)
    (acknowledged : Acknowledged) : Prop where
  holds : SnapshotHolds snapshot account.header acknowledged.saved
  savable : Savable account.keys acknowledged.saved
  fine : ∀ logged ∈ acknowledged.pending, logged.Short ∧ logged.Within account.keys
  header : account.header.toNat = ledger.header
  records : acknowledged.pending.length = ledger.records
  last : acknowledged.pending ≠ [] → account.base.toNat + acknowledged.pending.length = ledger.last
  ahead : acknowledged.pending ≠ [] → account.header ≤ account.base
  lastUsed : ledger.last ≤ used
  headerUsed : ledger.header ≤ used
  keysUsed : account.keys.card ≤ used
  room : used < 2^64

def Resting (directory : Directory) (acknowledged : Acknowledged) (ledger : Ledger) (used : Nat) : Prop :=
  ∃ account, Booked account ledger used directory.snapshot acknowledged ∧
    (directory.log = [] ∧ acknowledged.pending = [] ∨
      directory.log = headerWith 0 ++ encodeLog (logOf account.base acknowledged.pending))

structure Runs (account : Account) (process : Process config) (ledger : Ledger) (used : Nat) : Prop where
  booked : Booked account ledger used process.engine.snapshot process.acknowledged
  wal : process.engine.wal = writerAt 0 (logOf account.base process.acknowledged.pending)
    (account.base + UInt64.ofNat process.acknowledged.pending.length)
  last : account.base.toNat + process.acknowledged.pending.length = ledger.last
  kept : Kept account.keys process.store

theorem Booked.load {account : Account} {ledger : Ledger} {used : Nat} {engine : PersistenceEngine}
    {acknowledged : Acknowledged} (booked : Booked account ledger used engine.snapshot acknowledged) :
    engine.loadSnapshot = (account.header,acknowledged.saved) := by
  rw [PersistenceEngine.loadSnapshot]
  rcases booked.holds with ⟨absent,zero,empty⟩ | present
  · rw [absent,zero,empty]
    rfl
  · rw [present,booked.savable.read (lt_of_le_of_lt booked.keysUsed booked.room)]

theorem Runs.lastOffset {account : Account} {process : Process config} {ledger : Ledger} {used : Nat}
    (runs : Runs account process ledger used) : process.engine.wal.lastOffset.toNat = ledger.last := by
  have bound := runs.booked.lastUsed
  have room := runs.booked.room
  have last := runs.last
  rw [runs.wal]
  change (account.base + UInt64.ofNat _).toNat = _
  rw [UInt64.toNat_add,UInt64.toNat_ofNat',Nat.add_mod_mod,Nat.mod_eq_of_lt (by omega)]
  exact last

theorem Runs.snapshotOffset {account : Account} {process : Process config} {ledger : Ledger} {used : Nat}
    (runs : Runs account process ledger used) : process.snapshotOffset = account.header :=
  congrArg Prod.fst runs.booked.load

theorem Runs.resting {account : Account} {process : Process config} {ledger : Ledger} {used : Nat}
    (runs : Runs account process ledger used) :
    Resting process.directory process.acknowledged ledger used := by
  refine ⟨account,runs.booked,Or.inr ?_⟩
  rw [Process.directory,runs.wal]
  rfl

theorem Booked.room_base {account : Account} {ledger : Ledger} {used : Nat} {snapshot : Option Bytes}
    {acknowledged : Acknowledged} (booked : Booked account ledger used snapshot acknowledged) :
    account.base.toNat + acknowledged.pending.length < 2^64 := by
  by_cases empty : acknowledged.pending = []
  · rw [empty]
    exact account.base.toNat_lt
  · have last := booked.last empty
    have bound := booked.lastUsed
    have room := booked.room
    omega

theorem Booked.replayed {account : Account} {ledger : Ledger} {used : Nat} {snapshot : Option Bytes}
    {acknowledged : Acknowledged} (booked : Booked account ledger used snapshot acknowledged) (clock : RecoveryClock)
    (index : Nat) (store : Store config) :
    replayRecords clock account.header index (logOf account.base acknowledged.pending) store =
      .ok (replayLogged clock index acknowledged.pending store) := by
  by_cases empty : acknowledged.pending = []
  · rw [empty]
    rfl
  · exact replayRecords_logOf clock _ _ _ index store (booked.ahead empty) booked.room_base
      (fun logged member => (booked.fine logged member).1)

theorem Booked.recover {account : Account} {ledger : Ledger} {used : Nat} {snapshot : Option Bytes}
    {acknowledged : Acknowledged} (booked : Booked account ledger used snapshot acknowledged) :
    Booked {account with base := if acknowledged.pending = [] then 0 else account.base} ledger.recover used snapshot
      acknowledged := by
  have records : ledger.records = 0 ↔ acknowledged.pending = [] := by
    rw [← booked.records,List.length_eq_zero_iff]
  refine {booked with last := fun present => ?_, ahead := fun present => ?_, lastUsed := ?_}
  · simp only [present,if_false,Ledger.recover,records]
    exact booked.last present
  · simp only [present,if_false]
    exact booked.ahead present
  · rw [Ledger.recover]
    split
    · exact Nat.zero_le _
    · exact booked.lastUsed

theorem Resting.recover {directory : Directory} {acknowledged : Acknowledged} {ledger : Ledger} {used : Nat}
    (resting : Resting directory acknowledged ledger used) (fsync : FsyncMode) (clock : RecoveryClock) :
    ∃ engine account, (PersistenceEngine.new fsync directory.snapshot directory.log).recoverInto
        (Store.empty : Store config) clock = .ok (engine,acknowledged.restored config clock) ∧
      Runs account ⟨engine,acknowledged.restored config clock,acknowledged⟩ ledger.recover used := by
  obtain ⟨account,booked,log⟩ := resting
  have recovered : openAndRecover directory.log = .ok (logOf account.base acknowledged.pending,
      writerAt 0 (logOf account.base acknowledged.pending)
        (lastOffsetOf 0 (logOf account.base acknowledged.pending))) := by
    rcases log with ⟨absent,empty⟩ | present
    · rw [absent,empty]
      exact (restart_empty 0).trans (by rw [freshWriter_eq]; rfl)
    · rw [present]
      exact openAndRecover_logOf _ _ (fun logged member => (booked.fine logged member).1) booked.room_base
  refine ⟨⟨fsync,directory.snapshot,writerAt 0 (logOf account.base acknowledged.pending)
    (lastOffsetOf 0 (logOf account.base acknowledged.pending))⟩,_,?_,booked.recover,?_,?_,?_⟩
  · have loaded := @Booked.load account ledger used (PersistenceEngine.new fsync directory.snapshot directory.log)
      acknowledged booked
    rw [PersistenceEngine.recoverInto,loaded]
    simp only [PersistenceEngine.new,recovered,ok_bind,booked.replayed]
    rfl
  · dsimp only
    rw [lastOffsetOf_logOf]
    by_cases empty : acknowledged.pending = []
    · simp [empty,logOf,recordsFrom]
    · simp [empty]
  · simp only [Ledger.recover,← booked.records,List.length_eq_zero_iff]
    by_cases empty : acknowledged.pending = []
    · simp [empty]
    · simp only [empty,if_false]
      exact booked.last empty
  · exact Kept.replay clock _ _ _ (Kept.import clock _ 0 _ (kept_empty _) booked.savable.fine) booked.fine

def Logged.grow (logged : Logged) (keys : Finset Bytes) : Finset Bytes :=
  match logged with
  | .set key _ => insert key keys
  | _ => keys

theorem Logged.subset_grow (logged : Logged) (keys : Finset Bytes) : keys ⊆ logged.grow keys := by
  cases logged with
  | set key value => exact Finset.subset_insert key keys
  | _ => exact Finset.Subset.refl keys

theorem Logged.card_grow (logged : Logged) (keys : Finset Bytes) : (logged.grow keys).card ≤ keys.card + 1 := by
  cases logged with
  | set key value => exact Finset.card_insert_le key keys
  | _ => exact Nat.le_succ _

theorem Logged.within_grow (logged : Logged) (keys : Finset Bytes) : logged.Within (logged.grow keys) := by
  cases logged with
  | set key value => exact Finset.mem_insert_self key keys
  | _ => trivial

theorem Logged.Within.mono {logged : Logged} {keys more : Finset Bytes} (within : logged.Within keys)
    (sub : keys ⊆ more) : logged.Within more := by
  cases logged with
  | set key value => exact sub within
  | _ => trivial

theorem log_quiet (engine : PersistenceEngine) (io : Io) (faultless : io.Faultless) (records : List WalRecord)
    (last : UInt64) (at_ : engine.wal = writerAt 0 records last) (opcode : WalOpcode) (payload : Bytes) :
    engine.log io opcode payload =
      (.ok (),{engine with wal := writerAt 0 (records ++ [⟨last + 1,opcode,payload⟩]) (last + 1)}) := by
  rw [PersistenceEngine.log,at_,append_quiet io.writes faultless.writes]
  simp [PersistenceEngine.durabilityAction,WalWriter.sync,writerAt,faultless.fsync]

/-- One more mutation, logged at the offset behind the last one. -/
theorem Booked.mutate {account : Account} {ledger : Ledger} {used : Nat} {snapshot : Option Bytes}
    {acknowledged : Acknowledged} (booked : Booked account ledger used snapshot acknowledged) (logged : Logged)
    (short : logged.Short) (room : used + 1 < 2^64)
    (last : account.base.toNat + acknowledged.pending.length = ledger.last) (ahead : ledger.header ≤ ledger.last) :
    Booked {account with keys := logged.grow account.keys} ⟨ledger.last + 1,ledger.header,ledger.records + 1⟩ (used + 1)
      snapshot {acknowledged with pending := acknowledged.pending ++ [logged]} where
  holds := booked.holds
  savable := ⟨booked.savable.distinct,fun entry member => (booked.savable.fine entry member).grow (logged.subset_grow _)⟩
  fine := by
    refine List.forall_mem_append.mpr ⟨fun other member => ?_,List.forall_mem_singleton.mpr ⟨short,logged.within_grow _⟩⟩
    exact ⟨(booked.fine other member).1,(booked.fine other member).2.mono (logged.subset_grow _)⟩
  header := booked.header
  records := by
    rw [List.length_append,booked.records]
    rfl
  last := fun _ => by
    rw [List.length_append,List.length_singleton,← Nat.add_assoc,last]
  ahead := fun _ => by
    by_cases empty : acknowledged.pending = []
    · rw [empty,List.length_nil,Nat.add_zero] at last
      rw [UInt64.le_iff_toNat_le,booked.header,last]
      exact ahead
    · exact booked.ahead empty
  lastUsed := Nat.succ_le_succ booked.lastUsed
  headerUsed := Nat.le_succ_of_le booked.headerUsed
  keysUsed := le_trans (logged.card_grow _) (Nat.succ_le_succ booked.keysUsed)
  room := room

theorem Runs.mutate {account : Account} {process : Process config} {ledger : Ledger} {used : Nat}
    (runs : Runs account process ledger used) (mutation : Mutation) (io : Io) (wallNow : Int) (first second : Instant)
    (faultless : io.Faultless) (short : (mutation.logged wallNow).Short) (room : used + 1 < 2^64) :
    ∃ next, process.act (.mutate mutation io wallNow first second) = .ok next ∧
      (process.snapshotOffset < next.engine.wal.lastOffset ↔ ledger.header ≤ ledger.last) ∧
      (ledger.header ≤ ledger.last → ∃ account, Runs account next
        ⟨ledger.last + 1,ledger.header,ledger.records + 1⟩ (used + 1)) := by
  have performed := perform_eq process.engine io process.store mutation wallNow first second
  rw [log_quiet process.engine io faultless _ _ runs.wal,← logOf_append] at performed
  obtain ⟨logged,same⟩ : ∃ logged, mutation.logged wallNow = logged := ⟨_,rfl⟩
  rw [same] at performed short
  have booked := runs.booked
  have last := runs.lastOffset
  rw [runs.wal] at last
  change (account.base + UInt64.ofNat process.acknowledged.pending.length).toNat = ledger.last at last
  have next := offset_succ _ (show (account.base + UInt64.ofNat process.acknowledged.pending.length).toNat + 1 < 2^64 by
    have bound := booked.lastUsed
    omega)
  refine ⟨⟨⟨process.engine.fsync,process.engine.snapshot,
      writerAt 0 (logOf account.base (process.acknowledged.pending ++ [logged]))
        (account.base + UInt64.ofNat process.acknowledged.pending.length + 1)⟩,logged.apply process.store first second,
    ⟨process.acknowledged.saved,process.acknowledged.pending ++ [logged]⟩⟩,?_,?_,fun ahead => ?_⟩
  · rw [Process.act,performed,same]
  · rw [runs.snapshotOffset,UInt64.lt_iff_toNat_lt,booked.header]
    change _ < (account.base + UInt64.ofNat process.acknowledged.pending.length + 1).toNat ↔ _
    rw [next,last,Nat.lt_succ_iff]
  · refine ⟨{account with keys := logged.grow account.keys},booked.mutate logged short room runs.last ahead,?_,?_,?_⟩
    · dsimp only
      rw [List.length_append,List.length_singleton,UInt64.ofNat_add,← UInt64.add_assoc]
      rfl
    · dsimp only
      rw [List.length_append,List.length_singleton,← Nat.add_assoc,runs.last]
    · exact (runs.kept.grow (logged.subset_grow _)).logged logged short (logged.within_grow _) first second

theorem Runs.save {account : Account} {process : Process config} {ledger : Ledger} {used : Nat}
    (runs : Runs account process ledger used) (io : SnapshotIo) (now : Int) (faultless : io.Faultless) :
    ∃ next, process.saved now (process.engine.snapshotNow io process.store now) = .ok next ∧
      ∃ account, Runs account next ledger.save used := by
  have booked := runs.booked
  have last := runs.lastOffset
  have opened : process.engine.wal.isOpen = true := by
    rw [runs.wal]
    rfl
  obtain ⟨savable,kept⟩ := runs.kept.export now
  refine ⟨⟨{process.engine with
      snapshot := some (SnapshotStore.encode process.engine.wal.lastOffset (process.store.exportSnapshotEntries now).1)
      wal := writerAt 0 [] process.engine.wal.lastOffset},(process.store.exportSnapshotEntries now).2,
    ⟨(process.store.exportSnapshotEntries now).1,[]⟩⟩,?_,
    ⟨account.keys,process.engine.wal.lastOffset,process.engine.wal.lastOffset⟩,?_,?_,?_,kept⟩
  · rw [snapshotNow_quiet process.engine opened io faultless]
    rfl
  · exact ⟨Or.inr rfl,savable,by simp,last,rfl,fun present => absurd rfl present,fun present => absurd rfl present,
      booked.lastUsed,booked.lastUsed,booked.keysUsed,booked.room⟩
  · simp [logOf,recordsFrom]
  · exact last

theorem Runs.act {account : Account} {process : Process config} {ledger : Ledger} {used : Nat}
    (runs : Runs account process ledger used) (action : Action) (fine : action.Fine)
    (room : used + action.mutates.toNat < 2^64) :
    ∃ next, process.act action = .ok next ∧
      ((action.mutates = true → process.snapshotOffset < next.engine.wal.lastOffset) ↔
        (action.mutates = true → ledger.header ≤ ledger.last)) ∧
      ((action.mutates = true → ledger.header ≤ ledger.last) →
        ∃ account, Runs account next (ledger.act action) (used + action.mutates.toNat)) := by
  cases action with
  | mutate mutation io wallNow first second =>
    obtain ⟨next,performed,above,later⟩ := runs.mutate mutation io wallNow first second fine.1 fine.2 room
    exact ⟨next,performed,imp_congr_right fun _ => above,fun ahead => later (ahead rfl)⟩
  | snapshot io now =>
    obtain ⟨next,performed,later⟩ := runs.save io now fine
    refine ⟨next,performed,?_,fun _ => later⟩
    simp [Action.mutates]

theorem countP_mutates (action : Action) (actions : List Action) :
    (action::actions).countP Action.mutates = action.mutates.toNat + actions.countP Action.mutates := by
  rw [List.countP_cons,Nat.add_comm]
  cases action.mutates <;> rfl

theorem Runs.acts_ahead {account : Account} {process final : Process config} {ledger : Ledger} {used : Nat}
    (runs : Runs account process ledger used) (actions : List Action) (fine : ∀ action ∈ actions, action.Fine)
    (room : used + actions.countP Action.mutates < 2^64) (acts : Acts process actions final) :
    ledger.Ahead actions ∧
      ∃ account, Runs account final (actions.foldl Ledger.act ledger) (used + actions.countP Action.mutates) := by
  induction acts generalizing account ledger used with
  | done process => exact ⟨trivial,account,runs⟩
  | step process next final action actions performed above rest ih =>
    obtain ⟨here,others⟩ := List.forall_mem_cons.mp fine
    rw [countP_mutates,← Nat.add_assoc] at room ⊢
    obtain ⟨next',performed',iff,later⟩ := runs.act action here (by omega)
    cases performed.symm.trans performed'
    have ahead := iff.mp above
    obtain ⟨account',runs'⟩ := later ahead
    obtain ⟨rest,final⟩ := ih runs' others room
    exact ⟨⟨ahead,rest⟩,final⟩

theorem Runs.exists_acts {account : Account} {process : Process config} {ledger : Ledger} {used : Nat}
    (runs : Runs account process ledger used) (actions : List Action) (fine : ∀ action ∈ actions, action.Fine)
    (room : used + actions.countP Action.mutates < 2^64) (ahead : ledger.Ahead actions) :
    ∃ final, Acts process actions final := by
  induction actions generalizing account process ledger used with
  | nil => exact ⟨process,.done process⟩
  | cons action actions ih =>
    obtain ⟨here,others⟩ := List.forall_mem_cons.mp fine
    rw [countP_mutates,← Nat.add_assoc] at room
    obtain ⟨next,performed,iff,later⟩ := runs.act action here (by omega)
    obtain ⟨account',runs'⟩ := later ahead.1
    obtain ⟨final,acts⟩ := ih runs' others room ahead.2
    exact ⟨final,.step process next final action actions performed (iff.mpr ahead.1) acts⟩

theorem Runs.close {account : Account} {process : Process config} {ledger : Ledger} {used : Nat}
    (runs : Runs account process ledger used) (ending : Ending) (fine : ending.Fine) :
    ∃ closed, process.close ending = .ok closed ∧ ∃ account, Runs account closed (ledger.close ending) used := by
  cases ending with
  | shutdown io now => exact runs.save io now fine
  | crash => exact ⟨process,rfl,account,runs⟩

theorem Resting.durable_iff (history : List Session) (directory : Directory) (acknowledged : Acknowledged)
    (ledger : Ledger) (used : Nat) (resting : Resting directory acknowledged ledger used)
    (fine : ∀ session ∈ history, session.Fine) (room : used + mutations history < 2^64) :
    Durable config history directory acknowledged ↔ ledger.AheadAlways history := by
  induction history generalizing directory acknowledged ledger used with
  | nil => exact Iff.rfl
  | cons session history ih =>
    obtain ⟨⟨fineActions,fineEnding⟩,others⟩ := List.forall_mem_cons.mp fine
    rw [mutations,List.map_cons,List.sum_cons,← Nat.add_assoc] at room
    have start : used + session.actions.countP Action.mutates < 2^64 := by omega
    obtain ⟨engine,account,recovered,runs⟩ := @Resting.recover config _ _ _ _ resting session.fsync session.clock
    constructor
    · rintro ⟨engine',final,closed,recovered',acts,ended,durable⟩
      cases recovered.symm.trans recovered'
      obtain ⟨ahead,account',runs'⟩ := runs.acts_ahead session.actions fineActions start acts
      obtain ⟨closed',ended',account'',runs''⟩ := runs'.close session.ending fineEnding
      cases ended.symm.trans ended'
      exact ⟨ahead,(ih _ _ _ _ runs''.resting others room).mp durable⟩
    · rintro ⟨ahead,later⟩
      obtain ⟨final,acts⟩ := runs.exists_acts session.actions fineActions start ahead
      obtain ⟨_,account',runs'⟩ := runs.acts_ahead session.actions fineActions start acts
      obtain ⟨closed,ended,account'',runs''⟩ := runs'.close session.ending fineEnding
      exact ⟨engine,final,closed,recovered,acts,ended,(ih _ _ _ _ runs''.resting others room).mpr later⟩

theorem resting_empty : Resting ⟨none,[]⟩ ⟨[],[]⟩ ⟨0,0,0⟩ 0 :=
  ⟨⟨∅,0,0⟩,⟨Or.inl ⟨rfl,rfl,rfl⟩,⟨List.nodup_nil,by simp⟩,by simp,rfl,rfl,fun present => absurd rfl present,
    fun present => absurd rfl present,le_refl _,le_refl _,le_refl _,by decide⟩,Or.inl ⟨rfl,rfl⟩⟩

/-- Sessions on a directory that is empty at first lose nothing exactly if none of them
performs a mutation while the last offset is behind the snapshot on disk. It falls behind
when a session recovers an empty log, since only the log is asked for the last offset. -/
theorem sessions_durable_iff (config : StoreConfig) (history : List Session)
    (fine : ∀ session ∈ history, session.Fine) (room : mutations history < 2^64) :
    Durable config history ⟨none,[]⟩ ⟨[],[]⟩ ↔ (⟨0,0,0⟩ : Ledger).AheadAlways history :=
  resting_empty.durable_iff history _ _ _ _ fine (by rwa [Nat.zero_add])

def setting (ending : Ending) (key : Bytes) : Session :=
  ⟨.always,fun _ => (⟨0,0⟩,⟨0,0⟩),[.mutate (.set key [0x76]) ⟨[],true⟩ 0 ⟨0,0⟩ ⟨0,0⟩],ending⟩

def orderly : Ending := .shutdown ⟨true,⟨[],true,true,true⟩,[],true⟩ 0

theorem setting_fine (ending : Ending) (fine : ending.Fine) (key : Bytes) (short : key.length < 100) :
    (setting ending key).Fine := by
  refine ⟨List.forall_mem_singleton.mpr ⟨⟨by simp [Quiet],rfl⟩,?_⟩,fine⟩
  change (encodeSetPayload key [0x76] none).length + 18 < 2^32
  rw [length_encodeSetPayload,List.length_singleton]
  omega

theorem orderly_fine : orderly.Fine := ⟨rfl,by simp [Quiet],rfl,rfl,rfl,by simp [Quiet],rfl⟩

theorem sessions_durable_crashes :
    (∀ session ∈ [setting .crash [0x61],setting orderly [0x62]], session.Fine) ∧
      Durable ⟨2,by decide,List.length,80⟩ [setting .crash [0x61],setting orderly [0x62]] ⟨none,[]⟩ ⟨[],[]⟩ := by
  have fine : ∀ session ∈ [setting .crash [0x61],setting orderly [0x62]], session.Fine := by
    refine List.forall_mem_cons.mpr ⟨setting_fine .crash trivial _ (by decide),List.forall_mem_singleton.mpr ?_⟩
    exact setting_fine _ orderly_fine _ (by decide)
  refine ⟨fine,(sessions_durable_iff _ _ fine (by decide)).mpr ?_⟩
  simp [Ledger.AheadAlways,Ledger.Ahead,setting,Ledger.recover,Ledger.act,Ledger.close,orderly,Action.mutates]

def leaves (config : StoreConfig) : List Session → Directory → Except Failure Directory
  | [], directory => .ok directory
  | session::history, directory => do
    let (engine,store) ← (PersistenceEngine.new session.fsync directory.snapshot directory.log).recoverInto
      (Store.empty : Store config) session.clock
    let final ← session.actions.foldlM Process.act ⟨engine,store,⟨[],[]⟩⟩
    let closed ← final.close session.ending
    leaves config history closed.directory

/-- The second session gives its record the offset 1, which the snapshot of the first one
already names, and the third session skips it. -/
theorem sessions_lose_record :
    (∀ session ∈ [setting orderly [0x61],setting .crash [0x62]], session.Fine) ∧
      ¬ Durable ⟨2,by decide,List.length,80⟩ [setting orderly [0x61],setting .crash [0x62]] ⟨none,[]⟩ ⟨[],[]⟩ ∧
      (do
        let directory ← leaves ⟨2,by decide,List.length,80⟩ [setting orderly [0x61],setting .crash [0x62]] ⟨none,[]⟩
        let (_,store) ← (PersistenceEngine.new .always directory.snapshot directory.log).recoverInto
          (Store.empty : Store ⟨2,by decide,List.length,80⟩) (fun _ => (⟨0,0⟩,⟨0,0⟩))
        Except.ok ((store.find [0x61]).isSome,(store.find [0x62]).isSome)) = .ok (true,false) := by
  have fine : ∀ session ∈ [setting orderly [0x61],setting .crash [0x62]], session.Fine := by
    refine List.forall_mem_cons.mpr ⟨setting_fine _ orderly_fine _ (by decide),List.forall_mem_singleton.mpr ?_⟩
    exact setting_fine .crash trivial _ (by decide)
  refine ⟨fine,fun durable => ?_,by decide +kernel⟩
  have ahead := (resting_empty.durable_iff _ _ _ _ _ fine (by decide)).mp durable
  simp [Ledger.AheadAlways,Ledger.Ahead,setting,Ledger.recover,Ledger.act,Ledger.close,orderly,Action.mutates,
    Ledger.save] at ahead

end NovaCache.Persistence
