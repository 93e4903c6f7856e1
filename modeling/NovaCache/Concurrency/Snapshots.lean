import NovaCache.Concurrency.Sweeps
import NovaCache.Persistence.Balance

/-! Snapshots and crashes while several threads are at work. The engine stays locked while a
snapshot is taken, so that no mutation comes between its walk over the shards, its place on
the disk and the end of the log that it covers; reads and expiry go on. -/
namespace NovaCache.Concurrency
open Sections Linearization Interruption
open Simulation (Run)
open Persistence (PersistenceEngine SnapshotIo Acknowledged Directory Logged RecoveryClock FsyncMode Kept Balance headerWith writerAt)
open Locking (Lock)
open Store (shardIndex)

variable {config : StoreConfig} {horizon : Int}

namespace Operation

/-- Mutations are logged, no system call fails, the record is of a length that the log can
hold, and the clock has not passed the horizon. -/
structure Reliable (horizon : Int) (operation : Operation config) : Prop where
  logs : ¬ operation.Unlogged
  faultless : ∀ io ∈ operation.io, io.Faultless
  saves : ∀ io now, operation = .snapshotNow io now → io.Faultless
  short : ∀ logged ∈ operation.logged, logged.Short
  timely : ∀ now ∈ operation.reading, now ≤ horizon

end Operation

abbrev ReliableOperation (config : StoreConfig) (horizon : Int) := {operation : Operation config // operation.Reliable horizon}

section threads
variable {Thread : Type} [DecidableEq Thread]

/-- The store alone, without files. -/
abbrev StoreObject (Thread : Type) (config : StoreConfig) (horizon : Int) :=
  Object Thread (ReliableOperation config horizon) (Store config) Reply

abbrev StoreStep (object : StoreObject Thread config horizon)
    (event : Option (Event Thread (ReliableOperation config horizon) Reply)) (next : StoreObject Thread config horizon) : Prop :=
  Object.Step (fun operation => operation.1.steps) unreserved object event next

variable {store : Store config} {history more : List (Event Thread (ReliableOperation config horizon) Reply)}
variable {plain middle next : StoreObject Thread config horizon} {since : List (Thread × ReliableOperation config horizon)}

/-- A moment of a run, and what has been done since. -/
structure Moment (store : Store config) (history : List (Event Thread (ReliableOperation config horizon) Reply))
    (plain middle : StoreObject Thread config horizon) (since : List (Thread × ReliableOperation config horizon)) : Prop where
  shown : ∃ early late, history = early ++ late ∧ Run StoreStep (.start store) early middle ∧ Run StoreStep middle late plain
  order : plain.order = middle.order ++ since

theorem moment_now (run : Run StoreStep (.start store) history plain) : Moment store history plain plain [] :=
  ⟨⟨history,[],(List.append_nil _).symm,run,.rest plain⟩,(List.append_nil _).symm⟩

theorem Moment.further {extra : List (Thread × ReliableOperation config horizon)} (moment : Moment store history plain middle since)
    (run : Run StoreStep plain more next) (order : next.order = plain.order ++ extra) :
    Moment store (history ++ more) next middle (since ++ extra) := by
  obtain ⟨⟨early,late,rfl,before,after⟩,ordered⟩ := moment
  refine ⟨⟨early,late ++ more,List.append_assoc ..,before,after.trans run⟩,?_⟩
  rw [order,ordered,List.append_assoc]

/-- What the next start restores: all that was there before and every mutation since, or what
the store was at some moment and every mutation since then. -/
inductive Remembers (past : Acknowledged) (store : Store config)
    (history : List (Event Thread (ReliableOperation config horizon) Reply)) (plain : StoreObject Thread config horizon) :
    Acknowledged → Prop
  | logged : Remembers past store history plain ⟨past.saved,past.pending ++ mutations plain.order⟩
  | saved {middle : StoreObject Thread config horizon} {since : List (Thread × ReliableOperation config horizon)}
      {saved : List PersistedEntry} (moment : Moment store history plain middle since)
      (saves : Saves horizon saved middle.memory) : Remembers past store history plain ⟨saved,mutations since⟩

theorem Remembers.further {past current : Acknowledged} {extra : List (Thread × ReliableOperation config horizon)}
    (remembers : Remembers past store history plain current) (run : Run StoreStep plain more next)
    (order : next.order = plain.order ++ extra) :
    Remembers past store (history ++ more) next ⟨current.saved,current.pending ++ mutations extra⟩ := by
  cases remembers with
  | logged =>
    have all : past.pending ++ mutations plain.order ++ mutations extra = past.pending ++ mutations next.order := by
      rw [order,mutations_append,List.append_assoc]
    dsimp only
    rw [all]
    exact .logged
  | saved moment saves =>
    dsimp only
    rw [← mutations_append]
    exact .saved (moment.further run order) saves

/-- A snapshot that is being taken: what it has listed is what the store was at a moment since
which there was no mutation. -/
def Taking (store : Store config) (history : List (Event Thread (ReliableOperation config horizon) Reply))
    (plain : StoreObject Thread config horizon) (keys : Finset Bytes) (listed : List (Bytes × Entry))
    (ahead : List (Fin config.shardCount)) : Prop :=
  ∃ middle since, Moment store history plain middle since ∧ mutations since = [] ∧ Kept keys middle.memory ∧
    middle.memory.Trimmed horizon plain.memory ∧ Swept horizon middle.memory listed ahead

theorem Taking.further {keys : Finset Bytes} {listed : List (Bytes × Entry)} {ahead : List (Fin config.shardCount)}
    {extra : List (Thread × ReliableOperation config horizon)} (taking : Taking store history plain keys listed ahead)
    (run : Run StoreStep plain more next) (order : next.order = plain.order ++ extra) (quiet : mutations extra = [])
    (trimmed : plain.memory.Trimmed horizon next.memory) : Taking store (history ++ more) next keys listed ahead := by
  obtain ⟨middle,since,moment,none,kept,before,swept⟩ := taking
  refine ⟨middle,since ++ extra,moment.further run order,?_,kept,before.trans trimmed,swept⟩
  rw [mutations_append,none,quiet]
  rfl

/-- What is left of a snapshot, behind the sync. -/
def sweepLeft (io : SnapshotIo) (now : Int) (ahead : List (Fin config.shardCount)) (listed : List (Bytes × Entry)) :
    Script (System config) Reply :=
  ((sweepScript true now ahead listed).behind.append fun listed => installScript io (persisted listed)).map (.of fun _ => .done)

/-- An operation on the store with its files, and the same on the store alone. -/
inductive Abreast (taking : List (Bytes × Entry) → List (Fin config.shardCount) → Prop) (covering : UInt64 → Prop) :
    Option (ReliableOperation config horizon × Script (System config) Reply) →
      Option (ReliableOperation config horizon × Script (Store config) Reply) → Prop
  | idle : Abreast taking covering none none
  | quiet {operation : ReliableOperation config horizon} (none : operation.1.logged = none) {rest : Script (Store config) Reply}
      (trimming : Trimming horizon rest) : Abreast taking covering (some (operation,rest.behind)) (some (operation,rest))
  | logs {operation : ReliableOperation config horizon} {logged : Logged} (mutates : operation.1.logged = some logged) :
      Abreast taking covering (some (operation,.atomic operation.1.apply)) (some (operation,.atomic operation.1.effect))
  | done (operation : ReliableOperation config horizon) (reply : Reply) :
      Abreast taking covering (some (operation,.done reply)) (some (operation,.done reply))
  | begins {operation : ReliableOperation config horizon} {io : SnapshotIo} {now : Int}
      (same : operation.1 = .snapshotNow io now) :
      Abreast taking covering (some (operation,(snapshotScript io now).map (.of fun _ => .done)))
        (some (operation,(sweepScript false now (List.finRange config.shardCount) []).map fun _ => .done))
  | sweeps {operation : ReliableOperation config horizon} {io : SnapshotIo} {now : Int}
      {ahead : List (Fin config.shardCount)} {listed : List (Bytes × Entry)} (same : operation.1 = .snapshotNow io now)
      (once : ahead.Nodup) (taken : taking listed ahead) :
      Abreast taking covering (some (operation,sweepLeft io now ahead listed))
        (some (operation,(sweepScript false now ahead listed).map fun _ => .done))
  | truncates {operation : ReliableOperation config horizon} {io : SnapshotIo} {now : Int} {offset : UInt64}
      (same : operation.1 = .snapshotNow io now) (covers : covering offset) :
      Abreast taking covering (some (operation,(truncateScript io (.ok offset)).map (.of fun _ => .done)))
        (some (operation,.done .done))

section calls
variable {taking further : List (Bytes × Entry) → List (Fin config.shardCount) → Prop} {covering beyond : UInt64 → Prop}
variable {call : Option (ReliableOperation config horizon × Script (System config) Reply)}
variable {simple : Option (ReliableOperation config horizon × Script (Store config) Reply)}

theorem abreast_call (operation : ReliableOperation config horizon) :
    Abreast taking covering (some (operation,operation.1.script)) (some (operation,operation.1.steps)) := by
  have quiets : operation.1.logged = none → operation.1.script = operation.1.steps.behind →
      Abreast taking covering (some (operation,operation.1.script)) (some (operation,operation.1.steps)) := by
    intro none same
    rw [same]
    exact .quiet none (steps_trimming none operation.2.logs operation.2.timely)
  obtain ⟨operation,reliable⟩ := operation
  cases operation with
  | durableSet | durableDel | durableExpire => exact .logs rfl
  | snapshotNow io now => exact .begins rfl
  | _ => exact quiets rfl rfl

theorem Abreast.mono (abreast : Abreast taking covering call simple)
    (takes : ∀ listed ahead, taking listed ahead → further listed ahead) (covers : ∀ offset, covering offset → beyond offset) :
    Abreast further beyond call simple := by
  cases abreast with
  | idle => exact .idle
  | quiet none trimming => exact .quiet none trimming
  | logs mutates => exact .logs mutates
  | done operation reply => exact .done operation reply
  | begins same => exact .begins same
  | sweeps same once taken => exact .sweeps same once (takes _ _ taken)
  | truncates same covered => exact .truncates same (covers _ covered)

/-- Nothing is being saved by an operation that does not reserve the engine. -/
theorem Abreast.free (abreast : Abreast taking covering call simple)
    (free : ∀ operation rest, call = some (operation,rest) → rest.reserves = false) : Abreast further beyond call simple := by
  cases abreast with
  | idle => exact .idle
  | quiet none trimming => exact .quiet none trimming
  | logs mutates => exact .logs mutates
  | done operation reply => exact .done operation reply
  | begins same => exact .begins same
  | @sweeps operation io now ahead listed same once taken =>
    cases ahead with
    | nil => cases free _ _ rfl
    | cons => cases free _ _ rfl
  | truncates same covered => cases free _ _ rfl

theorem Abreast.returns {operation : ReliableOperation config horizon} {result : Reply}
    (abreast : Abreast taking covering (some (operation,.done result)) simple) : simple = some (operation,.done result) := by
  generalize ended : Script.done result = rest at abreast
  cases abreast with
  | @quiet _ none rest trimming =>
    cases rest with
    | act => cases ended
    | done =>
      cases ended
      rfl
  | done =>
    cases ended
    rfl
  | @sweeps _ _ _ left => cases left <;> cases ended
  | _ => cases ended

end calls

/-- Nothing has been logged behind the snapshot. -/
def Covers (balance : Balance) (offset : UInt64) : Prop := balance.acknowledged.pending = [] ∧ offset = balance.last

variable {past : Acknowledged} {used : Nat} {balance changed : Balance} {thread : Thread}
variable {object after : Object Thread (ReliableOperation config horizon) (System config) Reply}

/-- The object with its files against the one without, and the files against what has been done. -/
structure Matched (past : Acknowledged) (store : Store config) (used : Nat)
    (history : List (Event Thread (ReliableOperation config horizon) Reply))
    (object : Object Thread (ReliableOperation config horizon) (System config) Reply) (plain : StoreObject Thread config horizon)
    (balance : Balance) : Prop where
  shown : Run StoreStep (.start store) history plain
  memory : object.memory.2 = plain.memory
  calls : ∀ thread, Abreast (Taking store history plain balance.keys) (Covers balance) (object.calls thread) (plain.calls thread)
  books : balance.Books object.memory.1
  remembers : Remembers past store history plain balance.acknowledged
  kept : Kept balance.keys plain.memory
  used : balance.used = used + (mutations plain.order).length

/-- Nothing happens to the files, and nothing to the store that could be seen. -/
theorem Matched.quiet {extra : List (Thread × ReliableOperation config horizon)}
    (matched : Matched past store used history object plain balance) (run : Run StoreStep plain more next)
    (order : next.order = plain.order ++ extra) (quiet : mutations extra = [])
    (trimmed : plain.memory.Trimmed horizon next.memory) (memory : after.memory = (object.memory.1,next.memory))
    (others : ∀ other, other ≠ thread → after.calls other = object.calls other ∧ next.calls other = plain.calls other)
    (own : Abreast (Taking store (history ++ more) next balance.keys) (Covers balance) (after.calls thread) (next.calls thread)) :
    Matched past store used (history ++ more) after next balance where
  shown := matched.shown.trans run
  memory := by rw [memory]
  calls other := by
    by_cases mine : other = thread
    · subst mine
      exact own
    · rw [(others other mine).1,(others other mine).2]
      exact (matched.calls other).mono (fun _ _ taking => taking.further run order quiet trimmed) fun _ => id
  books := by
    rw [memory]
    exact matched.books
  remembers := by
    have further := matched.remembers.further run order
    rw [quiet,List.append_nil] at further
    exact further
  kept := matched.kept.trimmed trimmed
  used := by rw [order,mutations_append,quiet,List.append_nil,matched.used]

/-- An action that drops expired entries. -/
theorem Matched.trims {operation : ReliableOperation config horizon} {Answer : Type} {reserves : Bool}
    {action : Store config → Answer × Store config} {rest : Answer → Script (Store config) Reply}
    {left : Script (System config) Reply} (matched : Matched past store used history object plain balance)
    (none : operation.1.logged = none) (found : plain.calls thread = some (operation,.act reserves action rest))
    (trimmed : plain.memory.Trimmed horizon (action plain.memory).2)
    (own : ∀ next : StoreObject Thread config horizon, Run StoreStep plain [] next →
      next.order = plain.order ++ [(thread,operation)] → next.memory = (action plain.memory).2 →
        Abreast (Taking store (history ++ []) next balance.keys) (Covers balance) (some (operation,left))
          (some (operation,rest (action plain.memory).1))) :
    Matched past store used history (object.act thread operation (object.memory.1,(action plain.memory).2) left)
      (plain.act thread operation (action plain.memory).2 (rest (action plain.memory).1)) balance := by
  have run : Run StoreStep plain [] (plain.act thread operation (action plain.memory).2 (rest (action plain.memory).1)) :=
    .single (Object.Step.point found fun _ _ _ _ _ _ => rfl)
  have quiet : mutations [(thread,operation)] = [] := by
    rw [mutations_single,none]
    rfl
  rw [← List.append_nil history]
  refine matched.quiet run rfl quiet trimmed rfl
    (fun other different => ⟨Function.update_of_ne different ..,Function.update_of_ne different ..⟩) ?_
  simp only [Object.act,Function.update_self]
  exact own _ run rfl rfl

/-- Nothing happens to the store. -/
theorem Matched.files {engine : PersistenceEngine} (matched : Matched past store used history object plain balance)
    (memory : after.memory = (engine,object.memory.2)) (others : ∀ other, other ≠ thread → after.calls other = object.calls other)
    (books : changed.Books engine) (remembers : Remembers past store history plain changed.acknowledged)
    (keys : changed.keys = balance.keys) (size : changed.used = balance.used)
    (covers : ∀ offset, Covers balance offset → Covers changed offset)
    (own : Abreast (Taking store history plain changed.keys) (Covers changed) (after.calls thread) (plain.calls thread)) :
    Matched past store used history after plain changed where
  shown := matched.shown
  memory := by
    rw [memory]
    exact matched.memory
  calls other := by
    by_cases mine : other = thread
    · subst mine
      exact own
    · rw [others other mine]
      refine (matched.calls other).mono (fun _ _ taking => ?_) covers
      rw [keys]
      exact taking
  books := by
    rw [memory]
    exact books
  remembers := remembers
  kept := by
    rw [keys]
    exact matched.kept
  used := size.trans matched.used

/-- How an action changes the files. -/
inductive Change (before after : PersistenceEngine) (balance changed : Balance) : Prop
  | kept (same : after.wal = before.wal)
  | emptied (same : after.snapshot = before.snapshot) (none : changed.records = [])
  | logged (same : after.snapshot = before.snapshot) (logged : Logged) (grown : changed = balance.log logged)

theorem effect_logged {operation : Operation config} {logged : Logged} (mutates : operation.logged = some logged) :
    ∃ first second, ∀ store, (operation.effect store).2 = logged.apply store first second := by
  cases operation with
  | durableSet io key value reading =>
    cases mutates
    exact ⟨reading,reading,fun _ => rfl⟩
  | durableDel io names unlocking now =>
    cases mutates
    exact ⟨⟨now,0⟩,⟨now,0⟩,fun _ => rfl⟩
  | durableExpire io key seconds wallNow first second =>
    cases mutates
    exact ⟨first,second,fun _ => rfl⟩
  | _ => cases mutates

/-- Nobody has reserved the engine when a mutation is logged, since it changes. -/
theorem Matched.free {operation : ReliableOperation config horizon} {logged : Logged}
    (matched : Matched past store used history object plain balance) (mutates : operation.1.logged = some logged)
    (apart : object.Apart Prod.fst thread (operation.1.apply object.memory).2) :
    ∀ other, other ≠ thread → ∀ performed rest, object.calls other = some (performed,rest) → rest.reserves = false := by
  intro other different performed rest busy
  by_contra reserves
  have same : (operation.1.apply object.memory).2.1 = object.memory.1 :=
    apart other performed rest different busy (Bool.not_eq_false _ ▸ reserves)
  have applied : operation.1.apply object.memory = _ :=
    apply_logged operation.2.faultless mutates matched.books.wal object.memory.2
  rw [applied] at same
  have offsets : balance.last + 1 = balance.last := by
    have lasts := congrArg (fun engine : PersistenceEngine => engine.wal.lastOffset) same
    rw [matched.books.wal] at lasts
    exact lasts
  exact absurd (congrArg UInt64.toNat offsets) (by rw [UInt64.toNat_add]; have := balance.last.toNat_lt; simp; omega)

/-- A mutation that is logged. -/
theorem Matched.logged {operation : ReliableOperation config horizon} {logged : Logged}
    (matched : Matched past store used history object plain balance) (mutates : operation.1.logged = some logged)
    (found : plain.calls thread = some (operation,.atomic operation.1.effect))
    (apart : object.Apart Prod.fst thread (operation.1.apply object.memory).2) :
    ∃ next, Matched past store used history
        (object.act thread operation (operation.1.apply object.memory).2 (.done (operation.1.apply object.memory).1)) next
        (balance.log logged) ∧
      Change object.memory.1 (operation.1.apply object.memory).2.1 balance (balance.log logged) := by
  have short := operation.2.short logged mutates
  have applied : operation.1.apply object.memory = _ :=
    apply_logged operation.2.faultless mutates matched.books.wal object.memory.2
  have run : Run StoreStep plain [] (plain.act thread operation (operation.1.effect plain.memory).2
      (.done (operation.1.effect plain.memory).1)) := .single (Object.Step.point found fun _ _ _ _ _ _ => rfl)
  have alone : mutations [(thread,operation)] = [logged] := by
    rw [mutations_single,mutates]
    rfl
  rw [applied]
  refine ⟨plain.act thread operation (operation.1.effect plain.memory).2 (.done (operation.1.effect plain.memory).1),
    ⟨?_,?_,fun other => ?_,⟨?_,?_⟩,?_,?_,?_⟩,.logged rfl logged rfl⟩
  · rw [← List.append_nil history]
    exact matched.shown.trans run
  · exact congrArg (fun store => (operation.1.effect store).2) matched.memory
  · by_cases mine : other = thread
    · subst mine
      simp only [Object.act,Function.update_self,matched.memory]
      exact .done operation _
    · simp only [Object.act,Function.update_of_ne mine]
      exact (matched.calls other).free (matched.free mutates apart other mine)
  · exact matched.books.holds.log short
  · rw [Balance.records_log,Balance.last_log,Persistence.logOf_append]
    rfl
  · have further := matched.remembers.further run (show _ = plain.order ++ [(thread,operation)] from rfl)
    rw [alone,List.append_nil] at further
    exact further
  · obtain ⟨first,second,effect⟩ := effect_logged mutates
    simp only [Object.act,effect]
    exact (matched.kept.grow (logged.subset_grow _)).logged logged short (logged.within_grow _) first second
  · change balance.used + 1 = used + (mutations (plain.order ++ [(thread,operation)])).length
    rw [mutations_append,alone,List.length_append,matched.used]
    rfl

section snapshots
variable {operation : ReliableOperation config horizon} {io : SnapshotIo} {now : Int}
variable (matched : Matched past store used history object plain balance) (same : operation.1 = .snapshotNow io now)
include matched same

/-- The store when the log has been synced is the one that is saved. -/
theorem Matched.begins (found : plain.calls thread =
      some (operation,(sweepScript false now (List.finRange config.shardCount) []).map fun _ => .done)) :
    (if object.memory.1.fsync ≠ .none then object.memory.1.wal.sync io.sync else .ok () : Except Failure Unit) = .ok () ∧
      Matched past store used history
        (object.act thread operation object.memory (sweepLeft io now (List.finRange config.shardCount) [])) plain balance := by
  have faultless := operation.2.saves io now same
  refine ⟨?_,matched.files rfl (fun other different => Function.update_of_ne different ..) matched.books matched.remembers rfl
    rfl (fun _ => id) ?_⟩
  · rw [matched.books.wal]
    simp [Persistence.WalWriter.sync,writerAt,faultless.sync]
  · simp only [Object.act,Function.update_self,found]
    exact .sweeps same (List.nodup_finRange _)
      ⟨plain,[],moment_now matched.shown,rfl,matched.kept,.refl _ _,swept_start _ _⟩

theorem Matched.sweeps {index : Fin config.shardCount} {ahead : List (Fin config.shardCount)}
    {listed : List (Bytes × Entry)} (once : (index::ahead).Nodup)
    (taking : Taking store history plain balance.keys listed (index::ahead))
    (found : plain.calls thread = some (operation,(sweepScript false now (index::ahead) listed).map fun _ => .done)) :
    ∃ next, Matched past store used history
      (object.act thread operation (object.memory.1,(object.memory.2.sweepShard index now).2)
        (sweepLeft io now ahead (listed ++ (object.memory.2.sweepShard index now).1))) next balance := by
  have early : now ≤ horizon := operation.2.timely now (by rw [same]; rfl)
  have none : operation.1.logged = none := by rw [same]; rfl
  have trimmed := Trimmed.later (Store.sweepShard_spec plain.memory matched.kept.placed index now).2.2 early
  rw [matched.memory]
  refine ⟨_,matched.trims none found trimmed fun next run order memory => .sweeps same once.of_cons ?_⟩
  obtain ⟨middle,since,moment,quiet,kept,before,swept⟩ := taking
  refine ⟨middle,_,moment.further run order,?_,kept,memory ▸ before.trans trimmed,?_⟩
  · rw [mutations_append,quiet,mutations_single,none]
    rfl
  · exact swept.sweep (List.nodup_cons.mp once).1 before matched.kept.placed early

/-- The snapshot covers the whole log, to which nothing has been added meanwhile. -/
theorem Matched.installs {listed : List (Bytes × Entry)} (taking : Taking store history plain balance.keys listed [])
    (found : plain.calls thread = some (operation,.done .done)) :
    ∃ engine, installed io (persisted listed) object.memory.1 = (.ok balance.last,engine) ∧
      Matched past store used history (object.act thread operation (engine,object.memory.2)
        ((truncateScript io (.ok balance.last)).map (.of fun _ => .done))) plain (balance.save (persisted listed)) ∧
      engine.wal = object.memory.1.wal := by
  have faultless := operation.2.saves io now same
  obtain ⟨middle,since,moment,none,kept,_,swept⟩ := taking
  have last : object.memory.1.wal.lastOffset = balance.last := by
    rw [matched.books.wal]
    rfl
  refine ⟨{object.memory.1 with snapshot := some (Persistence.SnapshotStore.encode balance.last (persisted listed))},?_,
    matched.files rfl (fun other different => Function.update_of_ne different ..) ⟨?_,?_⟩ ?_ rfl rfl (fun offset covers => ?_) ?_,
    rfl⟩
  · unfold installed
    rw [Persistence.write_quiet io faultless,last]
  · exact matched.books.holds.save (swept.saves.savable kept)
  · rw [Balance.records_save,Balance.last_save]
    exact matched.books.wal
  · have remembers : Remembers past store history plain ⟨persisted listed,mutations since⟩ := .saved moment swept.saves
    rw [none] at remembers
    exact remembers
  · exact ⟨rfl,covers.2.trans (Balance.last_save ..).symm⟩
  · simp only [Object.act,Function.update_self,found]
    exact .truncates same ⟨rfl,(Balance.last_save ..).symm⟩

theorem Matched.truncates {offset : UInt64} (covers : Covers balance offset) (room : balance.used < 2^64)
    (found : plain.calls thread = some (operation,.done .done)) :
    ∃ engine, emptied io offset object.memory.1 = (.ok (),engine) ∧
      Matched past store used history (object.act thread operation (engine,object.memory.2) (.done .done)) plain
        balance.empty ∧ engine.snapshot = object.memory.1.snapshot := by
  have faultless := operation.2.saves io now same
  have opened : object.memory.1.wal.isOpen = true := by
    rw [matched.books.wal]
    rfl
  obtain ⟨none,rfl⟩ := covers
  have records : balance.empty.records = [] := none
  have last : balance.empty.last = balance.last := by
    rw [Balance.last,records]
    exact UInt64.add_zero _
  refine ⟨{object.memory.1 with wal := writerAt 0 [] balance.last},?_,
    matched.files rfl (fun other different => Function.update_of_ne different ..) ⟨?_,?_⟩ ?_ rfl rfl (fun offset covers => ?_) ?_,
    rfl⟩
  · unfold emptied
    rw [faultless.rotate,Persistence.truncateAfter_quiet io.header faultless.header _ opened]
  · exact matched.books.holds.empty none room
  · rw [records,last]
    rfl
  · exact matched.remembers
  · exact ⟨covers.1,covers.2.trans last.symm⟩
  · simp only [Object.act,Function.update_self,found]
    exact .done operation _

end snapshots

/-- Every action keeps the files in balance. -/
theorem Matched.step {event : Option (Event Thread (ReliableOperation config horizon) Reply)}
    (matched : Matched past store used history object plain balance) (room : balance.used < 2^64)
    (step : Object.Step (fun operation : ReliableOperation config horizon => operation.1.script) Prod.fst object event after) :
    ∃ next changed, Matched past store used (history ++ event.toList) after next changed ∧
      Change object.memory.1 after.memory.1 balance changed := by
  have whole : object.memory = (object.memory.1,plain.memory) := Prod.ext rfl matched.memory
  cases step with
  | @call thread operation idle =>
    have here := matched.calls thread
    rw [idle] at here
    generalize found : plain.calls thread = call at here
    cases here
    refine ⟨_,_,matched.quiet (.single (Object.Step.call found)) (List.append_nil _).symm rfl (.refl _ _) whole
      (fun other different => ⟨Function.update_of_ne different ..,Function.update_of_ne different ..⟩) ?_,.kept rfl⟩
    simp only [Object.set,Function.update_self]
    exact abreast_call operation
  | @ret thread operation result ahead =>
    have here := matched.calls thread
    rw [ahead] at here
    have found := here.returns
    refine ⟨_,_,matched.quiet (.single (Object.Step.ret found)) (List.append_nil _).symm rfl (.refl _ _) whole
      (fun other different => ⟨Function.update_of_ne different ..,Function.update_of_ne different ..⟩) ?_,.kept rfl⟩
    simp only [Object.set,Function.update_self]
    exact .idle
  | @point thread operation _ reserves action next ahead apart =>
    have here := matched.calls thread
    rw [ahead] at here
    generalize found : plain.calls thread = call at here
    generalize ahead : Script.act reserves action next = rest at here
    rw [Option.toList_none,List.append_nil]
    cases here with
    | @quiet _ none rest trimming =>
      cases rest with
      | done => cases ahead
      | act reserves action rest =>
        cases ahead
        have trimmed := trimming.1 plain.memory matched.kept.placed
        simp only [matched.memory]
        exact ⟨_,balance,matched.trims none found trimmed fun _ _ _ _ => .quiet none (trimming.2 _),.kept rfl⟩
    | logs mutates =>
      cases ahead
      obtain ⟨next,kept,change⟩ := matched.logged mutates found apart
      exact ⟨next,_,kept,change⟩
    | done => cases ahead
    | begins same =>
      cases ahead
      obtain ⟨synced,kept⟩ := matched.begins same found
      simp only [synced]
      exact ⟨plain,balance,kept,.kept rfl⟩
    | @sweeps _ io now left listed same once taken =>
      cases left with
      | nil =>
        cases ahead
        obtain ⟨engine,placed,kept,wal⟩ := matched.installs same taken found
        simp only [placed]
        exact ⟨plain,_,kept,.kept wal⟩
      | cons index left =>
        cases ahead
        obtain ⟨next,kept⟩ := matched.sweeps same once taken found
        exact ⟨next,balance,kept,.kept rfl⟩
    | truncates same covers =>
      cases ahead
      obtain ⟨engine,truncated,kept,snapshot⟩ := matched.truncates same covers room found
      simp only [truncated]
      exact ⟨plain,_,kept,.emptied snapshot covers.1⟩

variable [Fintype Thread]

theorem length_mutations_le (run : Run StoreStep (.start store) history plain) :
    (mutations plain.order).length ≤ history.length := by
  have single : ∀ operation : ReliableOperation config horizon, operation.1.logged.isSome = true →
      ∃ action, operation.1.steps = .atomic action := by
    intro operation logs
    obtain ⟨logged,mutates⟩ := Option.isSome_iff_exists.mp logs
    exact ⟨_,Operation.steps_logged mutates⟩
  rw [length_mutations]
  exact order_length_le single run

/-- Whatever the threads have done, the files are in balance. -/
theorem run_matched {engine : PersistenceEngine} (books : balance.Books engine) (kept : Kept balance.keys store)
    (run : Run (Object.Step (fun operation : ReliableOperation config horizon => operation.1.script) Prod.fst)
      (.start (engine,store)) history object) (room : balance.used + history.length < 2^64) :
    ∃ plain changed, Matched balance.acknowledged store balance.used history object plain changed := by
  let Fine : List (Event Thread (ReliableOperation config horizon) Reply) →
      Object Thread (ReliableOperation config horizon) (System config) Reply → Prop := fun history object =>
    balance.used + history.length < 2^64 →
      ∃ plain changed, Matched balance.acknowledged store balance.used history object plain changed
  have start : Fine [] (.start (engine,store)) := by
    intro _
    refine ⟨.start store,balance,.rest _,rfl,fun _ => .idle,books,?_,kept,rfl⟩
    have remembers : Remembers balance.acknowledged store ([] : List (Event Thread (ReliableOperation config horizon) Reply))
        (.start store) ⟨balance.acknowledged.saved,balance.acknowledged.pending ++ mutations _⟩ := .logged
    rw [show mutations (Object.start store : StoreObject Thread config horizon).order = [] from rfl,
      List.append_nil] at remembers
    exact remembers
  have fine : Fine ([] ++ history) object := by
    refine run.traced (fun past before event after step fine room => ?_) start
    rw [List.length_append] at room
    obtain ⟨plain,changed,matched⟩ := fine (by omega)
    have bound := length_mutations_le matched.shown
    have used := matched.used
    obtain ⟨next,further,kept,_⟩ := matched.step (by omega) step
    exact ⟨next,further,kept⟩
  exact fine room

/-- What is on the disk when the process is gone. Records reach the log only behind its end; a
log that is to hold nothing but its header is emptied before that is written. A snapshot is
renamed to its place. -/
inductive LeavesFiles (state : State Thread (ReliableOperation config horizon) (Lock config) (Content config) Counters Reply) :
    Directory → Prop
  | whole : LeavesFiles state ⟨(state.memory.cells .engine : PersistenceEngine).snapshot,
      (state.memory.cells .engine : PersistenceEngine).wal.file.bytes⟩
  | torn {thread : Thread} {operation : ReliableOperation config horizon} {engine : PersistenceEngine}
      {next : Program config Reply} (ahead : state.calls thread = some (operation,.write .engine engine next)) (count : Nat) :
      LeavesFiles state ⟨(state.memory.cells .engine : PersistenceEngine).snapshot,
        engine.wal.file.bytes.take ((state.memory.cells .engine : PersistenceEngine).wal.file.bytes.length + count)⟩
  | begun {thread : Thread} {operation : ReliableOperation config horizon} {engine : PersistenceEngine}
      {next : Program config Reply} (ahead : state.calls thread = some (operation,.write .engine engine next))
      (empty : engine.wal.file.bytes = headerWith 0) (count : Nat) :
      LeavesFiles state ⟨(state.memory.cells .engine : PersistenceEngine).snapshot,engine.wal.file.bytes.take count⟩

/-- The directory holds what the operations amount to, in an order that fits the history. -/
def Survived (past : Acknowledged) (store : Store config) (bound : Nat)
    (history : List (Event Thread (ReliableOperation config horizon) Reply)) (directory : Directory) : Prop :=
  ∃ (plain : StoreObject Thread config horizon) (balance : Balance), Run StoreStep (.start store) history plain ∧
    Remembers past store history plain balance.acknowledged ∧ balance.Rests directory ∧ balance.used ≤ bound

theorem Matched.survives {directory : Directory} (matched : Matched past store used history object plain balance)
    (rests : balance.Rests directory) : Survived past store (used + history.length) history directory := by
  have bound := length_mutations_le matched.shown
  have size := matched.used
  exact ⟨plain,balance,matched.shown,matched.remembers,rests,by omega⟩

section interrupted
variable {other : StoreObject Thread config horizon}
variable (matched : Matched past store used history object plain balance)
variable (later : Matched past store used history after other changed)
variable (change : Change object.memory.1 after.memory.1 balance changed)
include matched later change

/-- The log has been written in part. -/
theorem Matched.torn (count : Nat) : Survived past store (used + history.length) history ⟨object.memory.1.snapshot,
    after.memory.1.wal.file.bytes.take (object.memory.1.wal.file.bytes.length + count)⟩ := by
  cases change with
  | kept wal =>
    rw [wal,List.take_of_length_le (Nat.le_add_right ..)]
    exact matched.survives matched.books.rests
  | emptied snapshot none =>
    have long : after.memory.1.wal.file.bytes.length ≤ object.memory.1.wal.file.bytes.length := by
      rw [later.books.bytes,matched.books.bytes,none,List.length_append,List.length_append]
      exact Nat.add_le_add_left (Nat.zero_le _) _
    rw [List.take_of_length_le (by omega),← snapshot]
    exact later.survives later.books.rests
  | logged snapshot logged grown =>
    subst grown
    obtain ⟨found,rfl | rfl,rests⟩ := matched.books.torn later.books snapshot count
    · exact matched.survives rests
    · exact later.survives rests

/-- The log has been emptied and its header written in part. -/
theorem Matched.begun (empty : after.memory.1.wal.file.bytes = headerWith 0) (count : Nat) :
    Survived past store (used + history.length) history ⟨object.memory.1.snapshot,(headerWith 0).take count⟩ := by
  cases change with
  | kept wal =>
    rw [wal] at empty
    exact matched.survives (matched.books.begun empty count)
  | emptied snapshot none =>
    rw [← snapshot]
    exact later.survives (later.books.begun empty count)
  | logged snapshot logged grown =>
    rw [← snapshot]
    exact later.survives (later.books.begun empty count)

end interrupted

theorem session_files {engine : PersistenceEngine} {directory : Directory}
    {state : State Thread (ReliableOperation config horizon) (Lock config) (Content config) Counters Reply}
    (books : balance.Books engine) (kept : Kept balance.keys store)
    (run : Run (Step fun operation : ReliableOperation config horizon => operation.1.program) (.start (view (engine,store)))
      history state) (room : balance.used + history.length < 2^64) (leaves : LeavesFiles state directory) :
    Survived balance.acknowledged store (balance.used + history.length) history directory := by
  obtain ⟨object,acted,same,writes⟩ := run_interrupted
    (fun operation : ReliableOperation config horizon => program_wellLocked operation.1)
    (fun operation => program_carries operation.1) (fun operation => program_once operation.1) run
  have same : (state.memory.cells .engine : PersistenceEngine) = object.memory.1 := same
  obtain ⟨plain,current,matched⟩ := run_matched books kept acted room
  have small : current.used < 2^64 := by
    have bound := length_mutations_le matched.shown
    have size := matched.used
    omega
  -- A write that is under way belongs to an action that would have been next.
  have changes : ∀ {thread operation rest} {next : PersistenceEngine},
      state.calls thread = some (operation,.write .engine next rest) → ∃ after other changed,
        Matched balance.acknowledged store balance.used history after other changed ∧ after.memory.1 = next ∧
          Change object.memory.1 next current changed := by
    intro thread operation rest next ahead
    obtain ⟨after,further,written⟩ := writes thread operation next rest ahead
    have written : after.memory.1 = next := written
    subst written
    rcases further with rfl | step
    · exact ⟨after,plain,current,matched,rfl,.kept rfl⟩
    · obtain ⟨other,changed,later,change⟩ := matched.step small step
      rw [Option.toList_none,List.append_nil] at later
      exact ⟨after,other,changed,later,rfl,change⟩
  cases leaves with
  | whole =>
    rw [same]
    exact matched.survives matched.books.rests
  | torn ahead count =>
    obtain ⟨after,other,changed,later,rfl,change⟩ := changes ahead
    rw [same]
    exact matched.torn later change count
  | begun ahead empty count =>
    obtain ⟨after,other,changed,later,rfl,change⟩ := changes ahead
    rw [same,empty]
    exact matched.begun later change empty count

/-- Starts of the server on one directory: recovery, threads at work with snapshots among what
they do, and a crash. No start finds a log that has fallen behind the snapshot. -/
inductive Lives (config : StoreConfig) (horizon : Int) (Thread : Type) [DecidableEq Thread] :
    Directory → List (List (Event Thread (ReliableOperation config horizon) Reply)) → Directory → Prop
  | done (directory : Directory) : Lives config horizon Thread directory [] directory
  | crash {directory left final : Directory} {history : List (Event Thread (ReliableOperation config horizon) Reply)}
      {histories : List (List (Event Thread (ReliableOperation config horizon) Reply))} {engine : PersistenceEngine}
      {store : Store config}
      {state : State Thread (ReliableOperation config horizon) (Lock config) (Content config) Counters Reply}
      (fsync : FsyncMode) (clock : RecoveryClock)
      (recovered : (PersistenceEngine.new fsync directory.snapshot directory.log).recoverInto Store.empty clock =
        .ok (engine,store)) (ahead : engine.loadSnapshot.1 ≤ engine.wal.lastOffset)
      (run : Run (Step fun operation : ReliableOperation config horizon => operation.1.program) (.start (view (engine,store)))
        history state) (leaves : LeavesFiles state left) (further : Lives config horizon Thread left histories final) :
      Lives config horizon Thread directory (history::histories) final

/-- The same without files. -/
inductive Survives (config : StoreConfig) (horizon : Int) (Thread : Type) [DecidableEq Thread] :
    Acknowledged → List (List (Event Thread (ReliableOperation config horizon) Reply)) → Acknowledged → Prop
  | done (past : Acknowledged) : Survives config horizon Thread past [] past
  | crash {past left final : Acknowledged} {history : List (Event Thread (ReliableOperation config horizon) Reply)}
      {histories : List (List (Event Thread (ReliableOperation config horizon) Reply))}
      {plain : StoreObject Thread config horizon} (clock : RecoveryClock)
      (run : Run StoreStep (.start (past.restored config clock)) history plain)
      (remembers : Remembers past (past.restored config clock) history plain left)
      (further : Survives config horizon Thread left histories final) :
      Survives config horizon Thread past (history::histories) final

theorem lives_survived {directory final : Directory} {histories : List (List (Event Thread (ReliableOperation config horizon) Reply))}
    (lives : Lives config horizon Thread directory histories final) {balance : Balance} (rests : balance.Rests directory)
    (room : balance.used + (histories.map List.length).sum < 2^64) :
    ∃ left : Balance, Survives config horizon Thread balance.acknowledged histories left.acknowledged ∧ left.Rests final ∧
      left.used < 2^64 := by
  induction lives generalizing balance with
  | done => exact ⟨balance,.done _,rests,by simpa using room⟩
  | @crash directory left final history histories engine store state fsync clock recovered ahead run leaves further ih =>
    rw [List.map_cons,List.sum_cons] at room
    obtain ⟨found,restored,books⟩ := @Balance.Rests.recovered config _ _ rests (by omega) fsync clock
    obtain ⟨rfl,rfl⟩ := Prod.mk.inj (Except.ok.inj (recovered.symm.trans restored))
    obtain ⟨begun,books,acknowledged,keys,size⟩ := books ahead
    have kept : Kept begun.keys (balance.acknowledged.restored config clock) := by
      rw [keys]
      exact rests.holds.kept clock
    obtain ⟨plain,later,shown,remembers,rests,bound⟩ := session_files books kept run (by omega) leaves
    rw [acknowledged] at remembers
    obtain ⟨last,survives,ended⟩ := ih rests (by omega)
    exact ⟨last,.crash clock shown remembers survives,ended⟩

/-- Threads are at work, snapshots are taken meanwhile, and the process crashes, again and
again. What the threads saw is what the store alone would have shown them, and the next start
restores it as it was at some moment, and every mutation since then. -/
theorem lives_restored (histories : List (List (Event Thread (ReliableOperation config horizon) Reply))) (directory : Directory)
    (lives : Lives config horizon Thread ⟨none,[]⟩ histories directory) (room : (histories.map List.length).sum < 2^64) :
    ∃ acknowledged, Survives config horizon Thread ⟨[],[]⟩ histories acknowledged ∧
      ∀ fsync clock, ∃ engine, (PersistenceEngine.new fsync directory.snapshot directory.log).recoverInto
        (Store.empty : Store config) clock = .ok (engine,acknowledged.restored config clock) := by
  have start : Balance.Rests ⟨0,[],⟨[],[]⟩,∅,0⟩ ⟨none,[]⟩ := by
    refine ⟨⟨.inl ⟨rfl,rfl,rfl⟩,⟨List.nodup_nil,List.forall_mem_nil _⟩,List.forall_mem_nil _,List.forall_mem_nil _,le_refl _,
      le_refl _⟩,.inl ⟨by decide,rfl⟩⟩
  obtain ⟨left,survives,rests,small⟩ := lives_survived lives start (by simpa using room)
  refine ⟨left.acknowledged,survives,fun fsync clock => ?_⟩
  obtain ⟨engine,restored,_⟩ := rests.recovered small fsync clock
  exact ⟨engine,restored⟩

theorem durablySaving_reliable :
    (Operation.durableSet ⟨[],true⟩ [0x6B] [0x76] ⟨0,0⟩ : Operation oneShard).Reliable 0 where
  logs := id
  faultless io same := by
    cases same
    exact ⟨List.forall_mem_nil _,rfl⟩
  saves io now same := by cases same
  short logged same := by
    cases same
    simp [Logged.Short,Logged.payload,Persistence.length_encodeSetPayload]
  timely now same := by cases same

theorem snapshotting_reliable :
    (Operation.snapshotNow ⟨true,⟨[],true,true,true⟩,[],true⟩ 0 : Operation oneShard).Reliable 0 where
  logs := id
  faultless io same := by cases same
  saves io now same := by
    cases same
    exact ⟨rfl,List.forall_mem_nil _,rfl,rfl,rfl,List.forall_mem_nil _,rfl⟩
  short logged same := by cases same
  timely now same := by
    cases same
    exact le_refl _

def durablySaving : ReliableOperation oneShard 0 := ⟨_,durablySaving_reliable⟩

def snapshotting : ReliableOperation oneShard 0 := ⟨_,snapshotting_reliable⟩

omit [Fintype Thread] in
/-- A call that has not begun is performed while nobody holds a lock. -/
theorem run_returns {thread : Thread} {operation : ReliableOperation config horizon} {system next : System config}
    {calls : Thread → Option (ReliableOperation config horizon × Program config Reply)} {reply : Reply}
    {history : List (Event Thread (ReliableOperation config horizon) Reply)}
    {state : State Thread (ReliableOperation config horizon) (Lock config) (Content config) Counters Reply}
    (ahead : calls thread = some (operation,operation.1.program)) (applied : operation.1.apply system = (reply,next))
    (further : Run (Step fun operation : ReliableOperation config horizon => operation.1.program)
      ⟨view next,Function.update calls thread none,fun _ _ => none⟩ history state) :
    Run (Step fun operation : ReliableOperation config horizon => operation.1.program) ⟨view system,calls,fun _ _ => none⟩
      (.ret thread operation reply::history) state := by
  have run := @run_performed _ _ _ _ _ _ _ _ _ (fun operation : ReliableOperation config horizon => operation.1.program) _ thread
    operation (program_wellLocked operation.1) (view system) calls ahead
  rw [run_program,applied] at run
  exact run.trans further

theorem durablySaving_apply {engine : PersistenceEngine} {records : List Persistence.WalRecord} {last : UInt64}
    (ends : engine.wal = writerAt 0 records last) (store : Store oneShard) :
    durablySaving.1.apply (engine,store) = (.done,
      {engine with wal := writerAt 0 (records ++ [⟨last + 1,.set,Persistence.encodeSetPayload [0x6B] [0x76] none⟩]) (last + 1)},
      store.set [0x6B] (.string [0x76]) ⟨0,0⟩) :=
  apply_logged durablySaving.2.faultless rfl ends store

theorem snapshotting_apply {engine : PersistenceEngine} {records : List Persistence.WalRecord} {last : UInt64}
    (ends : engine.wal = writerAt 0 records last) (store : Store oneShard) :
    snapshotting.1.apply (engine,store) = (.done,
      {engine with
        snapshot := some (Persistence.SnapshotStore.encode last (store.exportSnapshotEntries 0).1)
        wal := writerAt 0 [] last},(store.exportSnapshotEntries 0).2) := by
  have saves := snapshotting.2.saves _ _ rfl
  have taken := Persistence.snapshotNow_quiet engine (by rw [ends]; rfl) _ saves store 0
  rw [ends] at taken
  exact congrArg (Prod.map (Reply.of fun _ => .done) id) taken

/-- A mutation and a snapshot are called at once, and another mutation follows them. -/
def savingMeanwhile : List (Event Bool (ReliableOperation oneShard 0) Reply) :=
  [.call true snapshotting,.call false durablySaving,.ret false durablySaving .done,.ret true snapshotting .done,
    .call false durablySaving,.ret false durablySaving .done]

/-- A mutation returns before the process crashes, and a snapshot does not. -/
def savingBefore : List (Event Bool (ReliableOperation oneShard 0) Reply) :=
  [.call true snapshotting,.call false durablySaving,.ret false durablySaving .done]

/-- What the first run leaves is a snapshot, and a log with one mutation behind it. -/
def savedMeanwhile : Balance := ⟨1,[],⟨[⟨[0x6B],.string [0x76],none⟩],[.set [0x6B] [0x76]]⟩,{[0x6B]},2⟩

def leftMeanwhile : Directory where
  snapshot := some (Persistence.SnapshotStore.encode 1 savedMeanwhile.acknowledged.saved)
  log := headerWith 0 ++ Persistence.encodeLog (Persistence.logOf 1 savedMeanwhile.records)

theorem savedMeanwhile_rests : savedMeanwhile.Rests leftMeanwhile where
  holds := by
    refine ⟨.inr rfl,⟨List.nodup_singleton _,List.forall_mem_singleton.mpr ?_⟩,List.forall_mem_singleton.mpr ?_,
      List.forall_mem_singleton.mpr ?_,by decide,by decide⟩
    · exact ⟨Finset.mem_singleton_self _,by decide,⟨[0x76],rfl,by decide⟩,fun _ absent => by cases absent⟩
    · exact durablySaving.2.short _ rfl
    · exact Finset.mem_singleton_self _
  log := .inr ⟨[],congrArg _ (List.append_nil _).symm,Persistence.empty_not_startsRecord,
    Persistence.empty_not_overlong⟩

theorem run_savingMeanwhile : ∃ state, Run (Step fun operation : ReliableOperation oneShard 0 => operation.1.program)
    (.start (view (⟨.none,none,writerAt 0 [] 0⟩,Store.empty))) savingMeanwhile state ∧ LeavesFiles state leftMeanwhile := by
  apply Exists.intro
  constructor
  · apply Run.go (Step.call rfl)
    apply Run.go (Step.call rfl)
    apply run_returns
    · rfl
    · exact durablySaving_apply rfl _
    apply run_returns
    · rfl
    · exact snapshotting_apply rfl _
    apply Run.go (Step.call rfl)
    apply run_returns
    · rfl
    · exact durablySaving_apply rfl _
    apply Run.rest
  · exact .whole

def atZero : RecoveryClock := fun _ => (⟨0,0⟩,⟨0,0⟩)

-- The crash comes when the snapshot has been listed and is about to be written.
theorem run_savingBefore (snapshot : Option Bytes) (records : List Persistence.WalRecord) (last : UInt64) :
    ∃ state, Run (Step fun operation : ReliableOperation oneShard 0 => operation.1.program)
      (.start (view (⟨.none,snapshot,writerAt 0 records last⟩,savedMeanwhile.acknowledged.restored oneShard atZero)))
      savingBefore state := by
  apply Exists.intro
  apply Run.go (Step.call rfl)
  apply Run.go (Step.call rfl)
  apply run_returns
  · rfl
  · exact durablySaving_apply rfl _
  apply run_advances (List.replicate 11 true) rfl
  apply Run.rest

theorem interrupted_restored : ∃ directory acknowledged,
    Lives oneShard 0 Bool ⟨none,[]⟩ [savingMeanwhile,savingBefore] directory ∧
    Survives oneShard 0 Bool ⟨[],[]⟩ [savingMeanwhile,savingBefore] acknowledged ∧
    ∀ fsync clock, ∃ engine, (PersistenceEngine.new fsync directory.snapshot directory.log).recoverInto
      (Store.empty : Store oneShard) clock = .ok (engine,acknowledged.restored oneShard clock) := by
  obtain ⟨first,ran,leaves⟩ := run_savingMeanwhile
  have recovered := @Balance.Rests.reopened oneShard _ _ savedMeanwhile_rests (by decide) .none atZero
  obtain ⟨second,again⟩ := run_savingBefore leftMeanwhile.snapshot (Persistence.logOf 1 savedMeanwhile.records) 2
  obtain ⟨directory,life⟩ : ∃ directory, Lives oneShard 0 Bool ⟨none,[]⟩ [savingMeanwhile,savingBefore] directory := by
    refine ⟨_,.crash .none atZero rfl (by decide) ran leaves (.crash .none atZero recovered ?_ again .whole (.done _))⟩
    rw [Balance.Holds.load savedMeanwhile_rests.holds (by decide)]
    decide
  obtain ⟨acknowledged,survives,restored⟩ := lives_restored _ directory life (by decide)
  exact ⟨directory,acknowledged,life,survives,restored⟩

end threads

end NovaCache.Concurrency
