import NovaCache.Commands.Calls
import NovaCache.Persistence.FailedOperation
import NovaCache.Protocol.RoundTrip

/-! How a command ends. A request that asks for no mutation has a reply that can be encoded,
whatever the environment does; a mutation throws if and only if its log record is not stored. -/
namespace NovaCache.Commands
open Persistence Protocol
variable {config : StoreConfig}

/-- The mutation that SET, DEL and EXPIRE with accepted arguments stand for. -/
def mutation (arguments : List Bytes) (steady : Int) : Option Mutation :=
  match arguments with
  | [] => none
  | name::operands =>
    if normalize name = ascii "SET" then
      match operands with
      | [key,value] => some (.set key value)
      | _ => none
    else if normalize name = ascii "DEL" then
      if operands = [] ∨ operands.length ≥ sizeMax then none else some (.del operands)
    else if normalize name = ascii "EXPIRE" then
      match operands with
      | [key,text] =>
        (parseInt64 text).bind fun seconds =>
          if expirationIsRepresentable seconds steady then some (.expire key seconds.toInt) else none
      | _ => none
    else none

def requested (request : RespValue) (steady : Int) : Option Mutation :=
  (extractArguments request).bind fun arguments => mutation arguments steady

/-- The log is closed, a write stores only a part of the record, or the `fsync` behind it fails. -/
def LogFails (engine : PersistenceEngine) (io : Io) (size : Nat) : Prop :=
  engine.wal.isOpen = false ∨ storedCount io.writes size < size ∨ engine.fsync = .always ∧ io.fsync = false

def Unlogged (asked : Option Mutation) (environment : Environment) (context : CommandContext config) : Prop :=
  ∃ engine mutation, context.persistence = some engine ∧ asked = some mutation ∧
    LogFails engine environment.io (mutation.logged environment.wallNow).size

/-- The request is a mutation, persistence is on, and the record of the mutation is not logged. -/
def Fails (request : RespValue) (environment : Environment) (context : CommandContext config) : Prop :=
  Unlogged (requested request environment.steady) environment context

theorem append_fails_iff (writer : WalWriter) (results : List WriteResult) (opcode : WalOpcode) (payload : Bytes) :
    (∃ failure, (WalWriter.append results writer opcode payload).1 = .error failure) ↔
      writer.isOpen = false ∨ storedCount results (payload.length + 18) < payload.length + 18 := by
  let record : WalRecord := ⟨writer.lastOffset + 1,opcode,payload⟩
  have size : (encodeRecord record).length = payload.length + 18 := encodeRecord_length record
  have bound := storedCount_le results (payload.length + 18)
  have written := writeAll_ok_iff "short write to WAL" results writer.file (encodeRecord record)
  rw [size] at written
  unfold WalWriter.append
  split
  · next closed => exact iff_of_true ⟨_,rfl⟩ (Or.inl (by simpa using closed))
  · next opened =>
    dsimp only
    split
    · next failure file failed =>
      rw [failed] at written
      have short : storedCount results (payload.length + 18) ≠ payload.length + 18 := fun whole => by cases written.mpr whole
      exact iff_of_true ⟨failure,rfl⟩ (Or.inr (by omega))
    · next file returned =>
      rw [returned] at written
      have whole := written.mp rfl
      refine iff_of_false nofun ?_
      rintro (closed | short)
      · exact opened (by rw [closed]; decide)
      · omega

theorem append_isOpen (writer : WalWriter) (results : List WriteResult) (opcode : WalOpcode) (payload : Bytes) :
    (WalWriter.append results writer opcode payload).2.isOpen = writer.isOpen := by
  unfold WalWriter.append
  split
  · rfl
  · dsimp only
    split <;> rfl

theorem log_fails_iff (engine : PersistenceEngine) (io : Io) (opcode : WalOpcode) (payload : Bytes) :
    (∃ failure, (engine.log io opcode payload).1 = .error failure) ↔ LogFails engine io (payload.length + 18) := by
  have appended := append_fails_iff engine.wal io.writes opcode payload
  have kept := append_isOpen engine.wal io.writes opcode payload
  unfold PersistenceEngine.log LogFails
  split
  · next failure wal failed =>
    rw [failed] at appended
    have stopped := appended.mp ⟨failure,rfl⟩
    exact iff_of_true ⟨failure,rfl⟩ (stopped.imp_right Or.inl)
  · next offset wal returned =>
    rw [returned] at appended kept
    have running : wal.isOpen = engine.wal.isOpen := kept
    obtain ⟨opened,stored⟩ := not_or.mp (fun stopped => nomatch appended.mpr stopped)
    rw [Bool.not_eq_false] at opened
    simp only [PersistenceEngine.durabilityAction,WalWriter.sync,running,opened,stored,false_or]
    by_cases always : engine.fsync = .always
    · cases io.fsync <;> simp [always]
    · simp [always]

/-- The command throws because its mutation is not logged, or has a reply that can be encoded. -/
def Settles (asked : Option Mutation) (environment : Environment) (context : CommandContext config)
    (outcome : Except Failure RespValue) : Prop :=
  match outcome with
  | .ok reply => AllClean (lineTexts reply) ∧ ¬ Unlogged asked environment context
  | .error _ => Unlogged asked environment context

theorem settles_unasked {environment : Environment} {context : CommandContext config} {reply : RespValue}
    (clean : AllClean (lineTexts reply)) : Settles none environment context (.ok reply) :=
  ⟨clean,fun ⟨_,_,_,impossible,_⟩ => nomatch impossible⟩

/-! The call that a request resolves to asks for the mutation of its arguments. -/

theorem mutation_other {name : Bytes} (operands : List Bytes) (steady : Int)
    (other : normalize name ∉ [ascii "SET",ascii "DEL",ascii "EXPIRE"]) : mutation (name::operands) steady = none := by
  simp only [List.mem_cons,List.not_mem_nil,or_false,not_or] at other
  unfold mutation
  dsimp only
  rw [if_neg other.1,if_neg other.2.1,if_neg other.2.2]

/-- The arguments of a mutation. -/
theorem mutation_cases {arguments : List Bytes} {steady : Int} {asked : Mutation}
    (same : mutation arguments steady = some asked) :
    (∃ name key value, arguments = [name,key,value] ∧ asked = .set key value) ∨
      (∃ name keys, arguments = name::keys ∧ asked = .del keys) ∨
      ∃ name key text seconds, arguments = [name,key,text] ∧ parseInt64 text = some seconds ∧
        expirationIsRepresentable seconds steady = true ∧ asked = .expire key seconds.toInt := by
  match arguments with
  | [] => cases same
  | name::operands =>
    unfold mutation at same
    dsimp only at same
    split at same
    · split at same
      · next key value =>
        cases same
        exact Or.inl ⟨name,key,value,rfl,rfl⟩
      · cases same
    split at same
    · split at same
      · cases same
      · cases same
        exact Or.inr (Or.inl ⟨name,operands,rfl,rfl⟩)
    split at same
    · split at same
      · next key text =>
        obtain ⟨seconds,parsed,same⟩ := Option.bind_eq_some_iff.mp same
        split at same
        · next fits =>
          cases same
          exact Or.inr (Or.inr ⟨name,key,text,seconds,rfl,parsed,fits,rfl⟩)
        · cases same
      · cases same
    · cases same

/-- The call of the name asks for the mutation that the name and its operands stand for. -/
def Asks (name : Bytes) (call : List Bytes → Int → Call) : Prop :=
  ∀ written operands steady, normalize written = name →
    mutation (written::operands) steady = (call operands steady).asked

theorem asks_nothing {name : Bytes} {call : List Bytes → Int → Call}
    (other : name ∉ [ascii "SET",ascii "DEL",ascii "EXPIRE"]) (silent : ∀ operands steady, (call operands steady).asked = none) :
    Asks name call := by
  intro written operands steady named
  rw [silent,mutation_other operands steady (named ▸ other)]

theorem asked_one {call : Bytes → Call} (silent : ∀ operand, (call operand).asked = none) (operands : List Bytes)
    (steady : Int) : (one call operands steady).asked = none := by
  unfold one
  split
  · exact silent _
  · rfl

theorem asked_existsMany (operands : List Bytes) (steady : Int) : (many .existsMany operands steady).asked = none := by
  unfold many
  split <;> rfl

theorem asked_pinged (operands : List Bytes) (steady : Int) : (pinged operands steady).asked = none := by
  unfold pinged
  split <;> rfl

theorem asked_informed (operands : List Bytes) (steady : Int) : (informed operands steady).asked = none := by
  unfold informed
  split <;> rfl

theorem set_asks : Asks (ascii "SET") assigned := by
  intro written operands steady named
  unfold mutation assigned
  dsimp only
  rw [if_pos named]
  match operands with
  | [] | [_] | [_,_] | _::_::_::_ => rfl

theorem del_asks : Asks (ascii "DEL") (many fun keys => .mutate (.del keys)) := by
  intro written operands steady named
  have distinct : ascii "DEL" ≠ ascii "SET" := by decide
  unfold mutation many
  dsimp only
  rw [named,if_neg distinct,if_pos rfl]
  split <;> rfl

theorem expire_asks : Asks (ascii "EXPIRE") scheduled := by
  intro written operands steady named
  have first : ascii "EXPIRE" ≠ ascii "SET" := by decide
  have second : ascii "EXPIRE" ≠ ascii "DEL" := by decide
  unfold mutation scheduled
  dsimp only
  rw [named,if_neg first,if_neg second,if_pos rfl]
  match operands with
  | [] | [_] | _::_::_::_ => rfl
  | [key,text] =>
    dsimp only
    cases parseInt64 text with
    | none => rfl
    | some seconds =>
      rw [Option.bind_some]
      dsimp only
      split <;> rfl

theorem calls_ask : ∀ item ∈ calls, Asks item.1 item.2 :=
  calls_cases (asks_nothing (by decide) asked_pinged) (asks_nothing (by decide) (asked_one fun _ => rfl)) set_asks
    (asks_nothing (by decide) (asked_one fun _ => rfl)) del_asks (asks_nothing (by decide) asked_existsMany) expire_asks
    (asks_nothing (by decide) (asked_one fun _ => rfl)) (asks_nothing (by decide) (asked_one fun _ => rfl))
    (asks_nothing (by decide) asked_informed)

theorem requested_eq (request : RespValue) (steady : Int) :
    requested request steady = (resolve request steady).asked := by
  unfold requested resolve
  cases extracted : extractArguments request with
  | none => rfl
  | some arguments =>
    obtain ⟨name,operands,rfl⟩ := extractArguments_cons extracted
    rw [Option.bind_some]
    dsimp only
    split
    · next unknown =>
      refine mutation_other operands steady fun member => ?_
      have absent := List.lookup_eq_none_iff.mp unknown
      have present : ∃ call, (normalize name,call) ∈ calls := by
        simp only [List.mem_cons,List.not_mem_nil,or_false] at member
        rcases member with same | same | same <;> rw [same]
        · exact ⟨_,List.mem_of_getElem? (i := 2) rfl⟩
        · exact ⟨_,List.mem_of_getElem? (i := 4) rfl⟩
        · exact ⟨_,List.mem_of_getElem? (i := 6) rfl⟩
      obtain ⟨call,found⟩ := present
      simpa using absent _ found
    · next call found => exact calls_ask _ (lookup_mem found) name operands steady rfl

/-! Every reply can be encoded. -/

theorem lineTextsOf_bulks (texts : List Bytes) :
    lineTextsOf (texts.map fun text => .bulk (some text)) = [] := by
  induction texts with
  | nil => rfl
  | cons text texts ih => exact ih

theorem clean_refusal {text : Bytes} (refused : text ∈ refusals) : AllClean (lineTexts (.error text)) := by
  have each : ∀ text ∈ refusals, AllClean (lineTexts (.error text)) := by decide
  exact each text refused

theorem clean_shown (value : Option Value) : AllClean (lineTexts (shown value)) := by
  unfold shown
  split
  · exact List.forall_mem_nil _
  · exact List.forall_mem_nil _
  · decide

theorem clean_listed (result : KeysResult) : AllClean (lineTexts (listed result)) := by
  unfold listed
  split
  · decide
  · rw [lineTexts,lineTextsOf_bulks]
    exact List.forall_mem_nil _

theorem clean_direct (mutation : Mutation) (environment : Environment) (store : Store config) :
    AllClean (lineTexts (direct mutation environment store).1) := by
  cases mutation with
  | set key value =>
    change AllClean (lineTexts (.simple (ascii "OK")))
    decide
  | del keys => exact List.forall_mem_nil _
  | expire key ttl => exact List.forall_mem_nil _

theorem clean_durable (mutation : Mutation) (environment : Environment) (store : Store config) :
    AllClean (lineTexts (durable mutation environment store).1) := by
  cases mutation with
  | set key value => exact clean_direct (.set key value) environment store
  | del keys => exact List.forall_mem_nil _
  | expire key ttl => exact List.forall_mem_nil _

theorem mutate_settles (mutation : Mutation) (environment : Environment) (context : CommandContext config) :
    Settles (some mutation) environment context ((Call.mutate mutation).run environment context).1 := by
  unfold Call.run
  dsimp only
  split
  · next alone =>
    refine ⟨clean_direct mutation environment context.store,?_⟩
    rintro ⟨engine,_,attached,_⟩
    cases alone.symm.trans attached
  · next engine attached =>
    have fails := log_fails_iff engine environment.io (mutation.logged environment.wallNow).opcode
      (mutation.logged environment.wallNow).payload
    split
    · next failure next logged =>
      exact ⟨engine,mutation,attached,rfl,fails.mp ⟨failure,by rw [logged]⟩⟩
    · next next logged =>
      refine ⟨clean_durable mutation environment context.store,?_⟩
      rintro ⟨other,_,there,asked,stopped⟩
      cases attached.symm.trans there
      cases asked
      obtain ⟨failure,raised⟩ := fails.mpr stopped
      rw [logged] at raised
      cases raised

theorem execute_settles (request : RespValue) (environment : Environment) (context : CommandContext config) :
    Settles (requested request environment.steady) environment context (execute request environment context).1 := by
  rw [execute_eq,requested_eq]
  cases call : resolve request environment.steady with
  | refused text => exact settles_unasked (clean_refusal (resolve_refused call))
  | pong => exact settles_unasked (by decide)
  | message text => exact settles_unasked (List.forall_mem_nil _)
  | get key => exact settles_unasked (clean_shown _)
  | existsMany keys => exact settles_unasked (List.forall_mem_nil _)
  | ttl key => exact settles_unasked (List.forall_mem_nil _)
  | keys pattern => exact settles_unasked (clean_listed _)
  | info =>
    unfold Call.run info
    dsimp only
    split <;> exact settles_unasked (List.forall_mem_nil _)
  | mutate mutation => exact mutate_settles mutation environment context

/-- The handler returns a reply, and the reply can be encoded. -/
def Replied (outcome : Except Failure RespValue) : Prop :=
  ∃ reply payload, outcome = .ok reply ∧ encode reply = .ok payload

theorem encode_clean {reply : RespValue} (clean : AllClean (lineTexts reply)) : ∃ payload, encode reply = .ok payload :=
  ⟨_,(appendEncoded_eq reply []).trans (if_pos clean)⟩

/-- Every request is answered unless it fails to be logged. -/
theorem execute_replied_iff (request : RespValue) (environment : Environment) (context : CommandContext config) :
    Replied (execute request environment context).1 ↔ ¬ Fails request environment context := by
  have settles := execute_settles request environment context
  unfold Settles at settles
  split at settles
  · next reply returned =>
    obtain ⟨payload,encoded⟩ := encode_clean settles.1
    exact iff_of_true ⟨reply,payload,returned,encoded⟩ settles.2
  · next failure raised =>
    refine iff_of_false ?_ (not_not_intro settles)
    rintro ⟨reply,_,returned,_⟩
    cases raised.symm.trans returned

end NovaCache.Commands
