import NovaCache.Commands.Outcome
import NovaCache.Store.Accounting

/-! Which commands touch the log. A call that asks for a mutation writes one record before
its effect; every other call leaves the engine alone and at most trims what has expired. -/
namespace NovaCache.Persistence

/-- The engine behind one more record. -/
def PersistenceEngine.appended (engine : PersistenceEngine) (logged : Logged) : PersistenceEngine :=
  let record : WalRecord := ⟨engine.wal.lastOffset + 1,logged.opcode,logged.payload⟩
  {engine with wal := {engine.wal with
    file := engine.wal.file.write (encodeRecord record)
    lastOffset := record.offset}}

theorem writeAll_failure {message : String} {results : List WriteResult} {file : File} {bytes : Bytes}
    {failure : Failure} (raised : (writeAll message results file bytes).1 = .error failure) :
    failure = .systemError "write" ∨ failure = .runtimeError message := by
  induction results generalizing file bytes with
  | nil =>
    unfold writeAll at raised
    split at raised <;> cases raised
  | cons result rest ih =>
    unfold writeAll at raised
    split at raised
    · cases raised
    · cases result with
      | interrupted => exact ih raised
      | failed =>
        cases raised
        exact Or.inl rfl
      | wrote count =>
        dsimp only at raised
        split at raised
        · cases raised
          exact Or.inr rfl
        · exact ih raised

theorem log_raises (engine : PersistenceEngine) (io : Io) (opcode : WalOpcode) (payload : Bytes) :
    (engine.log io opcode payload).1 ≠ .error .outOfRange := by
  unfold PersistenceEngine.log WalWriter.append
  intro raised
  split at raised
  · next failure wal failed =>
    split at failed
    · cases failed
      cases raised
    · dsimp only at failed
      split at failed
      · next written =>
        cases failed
        have known := writeAll_failure (congrArg Prod.fst written)
        cases raised
        rcases known with known | known <;> cases known
      · cases failed
  · unfold PersistenceEngine.durabilityAction WalWriter.sync at raised
    dsimp only at raised
    split at raised
    · split at raised
      · cases raised
      · split at raised <;> cases raised
    · cases raised

end NovaCache.Persistence

namespace NovaCache.Commands
open Persistence Protocol
variable {config : StoreConfig}

theorem log_appended (engine : PersistenceEngine) (io : Io) (logged : Logged) (fine : ¬ LogFails engine io logged.size) :
    engine.log io logged.opcode logged.payload = (.ok (),engine.appended logged) := by
  obtain ⟨opened,fine⟩ := not_or.mp fine
  obtain ⟨stored,synced⟩ := not_or.mp fine
  rw [Bool.not_eq_false] at opened
  unfold PersistenceEngine.log WalWriter.append PersistenceEngine.appended
  dsimp only
  have size : (encodeRecord ⟨engine.wal.lastOffset + 1,logged.opcode,logged.payload⟩).length = logged.size :=
    encodeRecord_length _
  generalize encodeRecord ⟨engine.wal.lastOffset + 1,logged.opcode,logged.payload⟩ = bytes at size ⊢
  have present : bytes ≠ [] := List.ne_nil_of_length_pos (size ▸ Nat.succ_pos _)
  have returned : (writeAll "short write to WAL" io.writes engine.wal.file bytes).1 = .ok () := by
    rw [writeAll_ok_iff,size]
    exact Nat.le_antisymm (storedCount_le _ _) (Nat.not_lt.mp stored)
  have written := writeAll_written "short write to WAL" io.writes engine.wal.file bytes present returned
  have both : writeAll "short write to WAL" io.writes engine.wal.file bytes = (.ok (),engine.wal.file.write bytes) :=
    Prod.ext returned written
  simp only [opened,both,not_true_eq_false,if_false]
  unfold PersistenceEngine.durabilityAction WalWriter.sync
  by_cases always : engine.fsync = .always
  · have flushed : io.fsync = true := by
      cases done : io.fsync with
      | true => rfl
      | false => exact absurd ⟨always,done⟩ synced
    rw [if_pos always,flushed]
    rfl
  · rw [if_neg always]

/-- The engine is the same, and so is what the store shows from this reading on. -/
def Untouched (now : Int) (before after : CommandContext config) : Prop :=
  after.persistence = before.persistence ∧
    ∀ key later, now ≤ later → after.store.live key later = before.store.live key later

theorem Untouched.refl (now : Int) (context : CommandContext config) : Untouched now context context :=
  ⟨rfl,fun _ _ _ => rfl⟩

theorem untouched_of_trims {now : Int} {context : CommandContext config} {Value : Type} {outcome : Value × Store config}
    {reply : Value → RespValue}
    (trims : ExpiringMap.Trims NovaCache.Entry.expiresAt now context.store.find outcome.2.find) :
    Untouched now context (context.directly outcome reply).2 :=
  ⟨rfl,fun key _ order => (trims.later order).visible_eq key⟩

theorem run_untouched (call : Call) (environment : Environment) (context : CommandContext config)
    (silent : call.asked = none) : Untouched environment.first.now context (call.run environment context).2 := by
  cases call with
  | refused text => exact Untouched.refl _ context
  | pong => exact Untouched.refl _ context
  | message text => exact Untouched.refl _ context
  | get key => exact untouched_of_trims (Store.lookupLive_spec context.store key _).2.found
  | existsMany keys => exact untouched_of_trims (Store.existsMany_spec context.store keys _).2.found
  | ttl key => exact untouched_of_trims (Store.ttl_spec context.store key _).2.found
  | keys pattern => exact untouched_of_trims (Store.keys_trims context.store pattern _)
  | info =>
    unfold Call.run info
    dsimp only
    split <;> exact Untouched.refl _ context
  | mutate mutation => cases silent

theorem run_raises (call : Call) (environment : Environment) (context : CommandContext config) :
    (call.run environment context).1 ≠ .error .outOfRange := by
  cases call with
  | mutate mutation =>
    unfold Call.run
    dsimp only
    split
    · exact nofun
    · next engine _ =>
      have raises := log_raises engine environment.io (mutation.logged environment.wallNow).opcode
        (mutation.logged environment.wallNow).payload
      split
      · next failure next failed =>
        rw [failed] at raises
        intro same
        cases same
        exact raises rfl
      · exact nofun
  | info =>
    unfold Call.run info
    dsimp only
    split <;> exact nofun
  | _ => exact nofun

/-- SET, DEL and EXPIRE with accepted arguments write one record; nothing else touches the
log or what the store shows; and no handler reads past its arguments. -/
theorem execute_logs (request : RespValue) (environment : Environment) (context : CommandContext config) :
    let response := execute request environment context
    response.1 ≠ .error .outOfRange ∧
      (∀ mutation engine, requested request environment.steady = some mutation → context.persistence = some engine →
        ¬ LogFails engine environment.io (mutation.logged environment.wallNow).size →
        response.2.persistence = some (engine.appended (mutation.logged environment.wallNow))) ∧
      (requested request environment.steady = none → Untouched environment.first.now context response.2) := by
  intro response
  have resolved : response = (resolve request environment.steady).run environment context :=
    execute_eq request environment context
  rw [resolved,requested_eq]
  refine ⟨run_raises _ environment context,?_,run_untouched _ environment context⟩
  intro mutation engine asked attached fine
  cases call : resolve request environment.steady with
  | mutate other =>
    rw [call] at asked
    cases asked
    unfold Call.run
    dsimp only
    rw [attached]
    dsimp only
    rw [log_appended engine environment.io _ fine]
  | _ =>
    rw [call] at asked
    cases asked

theorem execute_logs_set :
    let request : RespValue := .array (some [.bulk (some (ascii "set")),.bulk (some [0x6B]),.bulk (some [0x76])])
    let environment : Environment := ⟨0,0,⟨0,0⟩,⟨0,0⟩,⟨[.interrupted,.wrote 1],true⟩⟩
    (execute request environment ⟨blank,none,some opened,[],0,0⟩).2.persistence =
      some (opened.appended (.set [0x6B] [0x76])) :=
  (execute_logs _ _ _).2.1 (.set [0x6B] [0x76]) opened (by decide) rfl
    (not_or.mpr ⟨nofun,not_or.mpr ⟨by decide,fun both => nomatch both.2⟩⟩)

end NovaCache.Commands
