import NovaCache.Commands.Registry
import Mathlib.Data.List.Forall2

/-! Requests as calls. Dispatch, the number of arguments and their parsing come before the
first effect of a command; what is left is a call that nothing refuses any more. -/
namespace NovaCache.Commands
open Persistence Protocol
variable {config : StoreConfig}

inductive Call
  | refused (text : Bytes)
  | pong
  | message (text : Bytes)
  | get (key : Bytes)
  | existsMany (keys : List Bytes)
  | ttl (key : Bytes)
  | keys (pattern : Bytes)
  | info
  | mutate (mutation : Mutation)

def shown : Option Value → RespValue
  | none => .bulk none
  | some (.string text) => .bulk (some text)
  | some _ => .error wrongType

def listed (result : KeysResult) : RespValue :=
  if result.status ≠ .ok then .error (ascii "ERR unsupported pattern")
  else .array (some (result.keys.map fun key => .bulk (some key)))

def changed (found : Bool) : RespValue := .integer (if found then 1 else 0)

/-- The reply to a mutation and its effect on the store, without persistence. -/
def direct (mutation : Mutation) (environment : Environment) (store : Store config) : RespValue × Store config :=
  match mutation with
  | .set key value => (.simple (ascii "OK"),store.set key (.string value) environment.first)
  | .del keys => (store.delMany keys environment.first.now).map count id
  | .expire key ttl =>
    (store.expire key ttl environment.wallNow environment.first environment.second).map changed id

/-- The same behind a record in the log, which holds the expiry in milliseconds. -/
def durable (mutation : Mutation) (environment : Environment) (store : Store config) : RespValue × Store config :=
  match mutation with
  | .expire key ttl =>
    (store.expireAt key (some (fromUnixMs (PersistenceEngine.expiryMs ttl environment.wallNow))) environment.first
      environment.second).map changed id
  | mutation => direct mutation environment store

namespace Call

def asked : Call → Option Mutation
  | .mutate mutation => some mutation
  | _ => none

def run (call : Call) (environment : Environment) (context : CommandContext config) : Response config :=
  let now := environment.first.now
  match call with
  | .refused text => (.ok (.error text),context)
  | .pong => (.ok (.simple (ascii "PONG")),context)
  | .message text => (.ok (.bulk (some text)),context)
  | .get key => context.directly (context.store.get key now) shown
  | .existsMany names => context.directly (context.store.existsMany names now) count
  | .ttl key => context.directly (context.store.ttl key now) fun seconds => .integer (Int64.ofInt seconds)
  | .keys pattern => context.directly (context.store.keys pattern now) listed
  | .info => Commands.info [] environment context
  | .mutate mutation =>
    match context.persistence with
    | none => context.directly (direct mutation environment context.store) id
    | some engine =>
      let logged := mutation.logged environment.wallNow
      match engine.log environment.io logged.opcode logged.payload with
      | (.error failure,engine) => (.error failure,{context with persistence := some engine})
      | (.ok (),engine) =>
        let (reply,store) := durable mutation environment context.store
        (.ok reply,{context with store := store, persistence := some engine})

end Call

/-- Commands that take one operand. -/
def one (call : Bytes → Call) : List Bytes → Int → Call
  | [operand], _ => call operand
  | _, _ => .refused wrongArity

/-- Commands that take a list of keys. -/
def many (call : List Bytes → Call) (keys : List Bytes) (_ : Int) : Call :=
  if keys = [] ∨ keys.length ≥ sizeMax then .refused wrongArity else call keys

def pinged : List Bytes → Int → Call
  | [], _ => .pong
  | [text], _ => .message text
  | _, _ => .refused wrongArity

def assigned : List Bytes → Int → Call
  | [key,value], _ => .mutate (.set key value)
  | _, _ => .refused wrongArity

def scheduled : List Bytes → Int → Call
  | [key,text], steady =>
    match parseInt64 text with
    | none => .refused invalidInteger
    | some seconds =>
      if expirationIsRepresentable seconds steady then .mutate (.expire key seconds.toInt)
      else .refused invalidInteger
  | _, _ => .refused wrongArity

def informed : List Bytes → Int → Call
  | [], _ | [_], _ => .info
  | _, _ => .refused wrongArity

def calls : List (Bytes × (List Bytes → Int → Call)) :=
  [(ascii "PING",pinged),
    (ascii "ECHO",one .message),
    (ascii "SET",assigned),
    (ascii "GET",one .get),
    (ascii "DEL",many fun keys => .mutate (.del keys)),
    (ascii "EXISTS",many .existsMany),
    (ascii "EXPIRE",scheduled),
    (ascii "TTL",one .ttl),
    (ascii "KEYS",one .keys),
    (ascii "INFO",informed)]

/-- The texts with which a request is turned away before its command runs. -/
def refusals : List Bytes :=
  [wrongArity,invalidInteger,ascii "ERR Protocol error",ascii "ERR unknown command"]

/-- What a request asks for; the seconds of EXPIRE are checked against the steady clock. -/
def resolve (request : RespValue) (steady : Int) : Call :=
  match extractArguments request with
  | none | some [] => .refused (ascii "ERR Protocol error")
  | some (name::operands) =>
    match calls.lookup (normalize name) with
    | none => .refused (ascii "ERR unknown command")
    | some call => call operands steady

/-- The entry of a command checks the number of arguments and runs the handler as the call
says. -/
def Answers (item : Bytes × Entry config) (call : Bytes × (List Bytes → Int → Call)) : Prop :=
  item.1 = call.1 ∧ ∀ name operands environment context,
    (if (name::operands).length < item.2.metadata.minimumArity ∨
        (name::operands).length > item.2.metadata.maximumArity then (.ok (.error wrongArity),context)
      else item.2.handler (name::operands) environment context) =
    (call.2 operands environment.steady).run environment context

theorem answers_one {label : String} {next : Environment → CommandContext config → Bytes → Response config}
    {call : Bytes → Call} (named : normalize (ascii label) = ascii label)
    (same : ∀ environment context operand, next environment context operand = (call operand).run environment context) :
    Answers (add label 2 2 .readOnly fun arguments environment context =>
      withArgument arguments 1 context (next environment context)) (ascii label,one call) := by
  refine ⟨named,fun name operands environment context => ?_⟩
  match operands with
  | [] => rfl
  | [operand] => exact same environment context operand
  | _::_::rest =>
    apply if_pos
    right
    change rest.length + 2 + 1 > 2
    omega

theorem answers_many {label : String} {access : CommandAccess}
    {next : Environment → CommandContext config → List Bytes → Response config} {call : List Bytes → Call}
    (named : normalize (ascii label) = ascii label)
    (same : ∀ environment context keys, next environment context keys = (call keys).run environment context) :
    Answers (add label 2 sizeMax access fun arguments environment context =>
      next environment context (arguments.drop 1)) (ascii label,many call) := by
  refine ⟨named,fun name operands environment context => ?_⟩
  change (if operands.length + 1 < 2 ∨ operands.length + 1 > sizeMax then _ else next environment context operands) =
    (if operands = [] ∨ operands.length ≥ sizeMax then Call.refused wrongArity else call operands).run environment context
  by_cases outside : operands = [] ∨ operands.length ≥ sizeMax
  · rw [if_pos outside,if_pos]
    · rfl
    · refine outside.imp (fun none => ?_) fun most => Nat.lt_succ_of_le most
      rw [none]
      exact Nat.lt_succ_self 1
  · obtain ⟨present,few⟩ := not_or.mp outside
    have least := List.length_pos_iff.mpr present
    rw [if_neg outside,if_neg,same]
    omega

theorem ping_answers : Answers (add "PING" 1 2 .readOnly ping : Bytes × Entry config) (ascii "PING",pinged) := by
  have named : normalize (ascii "PING") = ascii "PING" := by decide
  refine ⟨named,fun name operands environment context => ?_⟩
  match operands with
  | [] => rfl
  | [text] => rfl
  | _::_::rest =>
    apply if_pos
    right
    change rest.length + 2 + 1 > 2
    omega

theorem info_answers : Answers (add "INFO" 1 2 .readOnly info : Bytes × Entry config) (ascii "INFO",informed) := by
  have named : normalize (ascii "INFO") = ascii "INFO" := by decide
  refine ⟨named,fun name operands environment context => ?_⟩
  match operands with
  | [] => rfl
  | [text] => rfl
  | _::_::rest =>
    apply if_pos
    right
    change rest.length + 2 + 1 > 2
    omega

/-- The handlers of three arguments, by what they do with the last two. -/
theorem answers_two {label : String} {handler : Handler config} {call : List Bytes → Int → Call}
    (named : normalize (ascii label) = ascii label)
    (refused : ∀ operands steady, operands.length ≠ 2 → call operands steady = .refused wrongArity)
    (same : ∀ name first second environment context, handler [name,first,second] environment context =
      (call [first,second] environment.steady).run environment context) :
    Answers (add label 3 3 .write handler) (ascii label,call) := by
  refine ⟨named,fun name operands environment context => ?_⟩
  change (if operands.length + 1 < 3 ∨ operands.length + 1 > 3 then _ else handler (name::operands) environment context) =
    (call operands environment.steady).run environment context
  by_cases two : operands.length = 2
  · obtain ⟨first,second,rfl⟩ := List.length_eq_two.mp two
    exact same name first second environment context
  · rw [if_pos (by omega),refused operands _ two]
    rfl

theorem set_answers : Answers (add "SET" 3 3 .write set : Bytes × Entry config) (ascii "SET",assigned) := by
  refine answers_two (by decide) (fun operands steady other => ?_) fun name key value environment context => ?_
  · unfold assigned
    split
    · exact absurd rfl other
    · rfl
  · simp only [set,withArgument,List.getElem?_cons_succ,List.getElem?_cons_zero]
    unfold assigned Call.run
    dsimp only
    cases context.persistence with
    | none => rfl
    | some engine =>
      unfold PersistenceEngine.durableSet CommandContext.durably
      dsimp only [Mutation.logged,Logged.opcode,Logged.payload]
      rcases engine.log environment.io .set (encodeSetPayload key value none) with ⟨failure | ⟨⟩,next⟩ <;> rfl

theorem del_answers : Answers (add "DEL" 2 sizeMax .write del : Bytes × Entry config)
    (ascii "DEL",many fun keys => .mutate (.del keys)) := by
  have named : normalize (ascii "DEL") = ascii "DEL" := by decide
  -- the handler drops the name of the command, whatever it is
  refine @answers_many config "DEL" .write (fun environment context keys => del ([]::keys) environment context) _ named
    fun environment context keys => ?_
  have dropped : (([] : Bytes)::keys).drop 1 = keys := rfl
  unfold del Call.run
  dsimp only
  rw [dropped]
  cases context.persistence with
  | none => rfl
  | some engine =>
    unfold PersistenceEngine.durableDel CommandContext.durably
    dsimp only [Mutation.logged,Logged.opcode,Logged.payload]
    rcases engine.log environment.io .del (encodeDelPayload keys) with ⟨failure | ⟨⟩,next⟩ <;> rfl

theorem expire_answers : Answers (add "EXPIRE" 3 3 .write expire : Bytes × Entry config) (ascii "EXPIRE",scheduled) := by
  refine answers_two (by decide) (fun operands steady other => ?_) fun name key text environment context => ?_
  · unfold scheduled
    split
    · exact absurd rfl other
    · rfl
  · simp only [expire,withArgument,List.getElem?_cons_succ,List.getElem?_cons_zero]
    unfold scheduled
    dsimp only
    cases parseInt64 text with
    | none => rfl
    | some seconds =>
      dsimp only
      cases expirationIsRepresentable seconds environment.steady with
      | false => rfl
      | true =>
        rw [if_pos rfl,if_neg (not_not_intro rfl)]
        unfold Call.run
        dsimp only
        cases context.persistence with
        | none => rfl
        | some engine =>
          unfold PersistenceEngine.durableExpire CommandContext.durably
          dsimp only [Mutation.logged,Logged.opcode,Logged.payload]
          rcases engine.log environment.io .expire
            (encodeExpirePayload key (PersistenceEngine.expiryMs seconds.toInt environment.wallNow)) with
            ⟨failure | ⟨⟩,next⟩ <;> rfl

theorem registry_answers : List.Forall₂ Answers (registry : List (Bytes × Entry config)) calls :=
  .cons ping_answers <| .cons (answers_one (by decide) fun _ _ _ => rfl) <| .cons set_answers <|
    .cons (answers_one (by decide) fun _ _ _ => rfl) <| .cons del_answers <|
    .cons (answers_many (by decide) fun _ _ _ => rfl) <| .cons expire_answers <|
    .cons (answers_one (by decide) fun _ _ _ => rfl) <| .cons (answers_one (by decide) fun _ _ _ => rfl) <|
    .cons info_answers .nil

theorem extractArguments_cons {request : RespValue} {arguments : List Bytes}
    (extracted : extractArguments request = some arguments) : ∃ name operands, arguments = name::operands := by
  unfold extractArguments at extracted
  split at extracted
  · cases extracted
  · next items present =>
    obtain ⟨first,rest,rfl⟩ := List.exists_cons_of_ne_nil present
    rw [List.mapM_cons] at extracted
    obtain ⟨name,_,extracted⟩ := Option.bind_eq_some_iff.mp extracted
    obtain ⟨operands,_,same⟩ := Option.bind_eq_some_iff.mp extracted
    exact ⟨name,operands,(Option.some.inj same).symm⟩
  · cases extracted

theorem lookup_related {α β γ : Type} [BEq γ] {related : γ × α → γ × β → Prop} {left : List (γ × α)}
    {right : List (γ × β)} (each : List.Forall₂ related left right) (keyed : ∀ a b, related a b → a.1 = b.1) (key : γ) :
    (left.lookup key = none ∧ right.lookup key = none) ∨
      ∃ a b, related a b ∧ left.lookup key = some a.2 ∧ right.lookup key = some b.2 := by
  induction each with
  | nil => exact Or.inl ⟨rfl,rfl⟩
  | @cons a b left right here _ ih =>
    rw [List.lookup_cons,List.lookup_cons,keyed a b here]
    cases key == b.1 with
    | true => exact Or.inr ⟨a,b,here,rfl,rfl⟩
    | false => exact ih

theorem execute_eq (request : RespValue) (environment : Environment) (context : CommandContext config) :
    execute request environment context = (resolve request environment.steady).run environment context := by
  unfold execute resolve
  cases extracted : extractArguments request with
  | none => rfl
  | some arguments =>
    obtain ⟨name,operands,rfl⟩ := extractArguments_cons extracted
    simp only [withArgument,List.getElem?_cons_zero]
    rcases lookup_related registry_answers (fun _ _ answers => answers.1) (normalize name) with
      ⟨unknown,absent⟩ | ⟨item,call,answers,found,present⟩
    · rw [unknown,absent]
      rfl
    · rw [found,present]
      exact answers.2 name operands environment context

theorem lookup_mem {α : Type} {table : List (Bytes × α)} {name : Bytes} {entry : α}
    (found : table.lookup name = some entry) : (name,entry) ∈ table := by
  obtain ⟨front,back,split,_⟩ := List.lookup_eq_some_iff.mp found
  rw [split]
  exact List.mem_append_right front List.mem_cons_self

/-- A call from the table, by the shape that it has for each command. -/
theorem calls_cases {holds : Bytes → (List Bytes → Int → Call) → Prop} (ping : holds (ascii "PING") pinged)
    (echo : holds (ascii "ECHO") (one .message)) (set : holds (ascii "SET") assigned)
    (get : holds (ascii "GET") (one .get)) (del : holds (ascii "DEL") (many fun keys => .mutate (.del keys)))
    (exists_ : holds (ascii "EXISTS") (many .existsMany)) (expire : holds (ascii "EXPIRE") scheduled)
    (ttl : holds (ascii "TTL") (one .ttl)) (keys : holds (ascii "KEYS") (one .keys))
    (info : holds (ascii "INFO") informed) : ∀ item ∈ calls, holds item.1 item.2 := by
  simp only [calls,List.forall_mem_cons]
  exact ⟨ping,echo,set,get,del,exists_,expire,ttl,keys,info,List.forall_mem_nil _⟩

theorem refused_one {call : Bytes → Call} {operands : List Bytes} {steady : Int} {text : Bytes}
    (never : ∀ operand, call operand ≠ .refused text) (refused : one call operands steady = .refused text) :
    text ∈ refusals := by
  unfold one at refused
  split at refused
  · exact absurd refused (never _)
  · cases refused
    exact List.mem_cons_self

theorem refused_many {call : List Bytes → Call} {operands : List Bytes} {steady : Int} {text : Bytes}
    (never : ∀ keys, call keys ≠ .refused text) (refused : many call operands steady = .refused text) :
    text ∈ refusals := by
  unfold many at refused
  split at refused
  · cases refused
    exact List.mem_cons_self
  · exact absurd refused (never _)

theorem refused_scheduled {operands : List Bytes} {steady : Int} {text : Bytes}
    (refused : scheduled operands steady = .refused text) : text ∈ refusals := by
  unfold scheduled at refused
  split at refused
  · split at refused
    · cases refused
      exact List.mem_cons_of_mem _ List.mem_cons_self
    · split at refused
      · cases refused
      · cases refused
        exact List.mem_cons_of_mem _ List.mem_cons_self
  · cases refused
    exact List.mem_cons_self

theorem resolve_refused {request : RespValue} {steady : Int} {text : Bytes}
    (refused : resolve request steady = .refused text) : text ∈ refusals := by
  have each : ∀ item ∈ calls, ∀ operands, item.2 operands steady = .refused text → text ∈ refusals := by
    apply @calls_cases fun _ call => ∀ operands, call operands steady = .refused text → text ∈ refusals
    case expire => exact fun _ => refused_scheduled
    case del => exact fun _ => refused_many nofun
    case exists_ => exact fun _ => refused_many nofun
    case echo => exact fun _ => refused_one nofun
    case get => exact fun _ => refused_one nofun
    case ttl => exact fun _ => refused_one nofun
    case keys => exact fun _ => refused_one nofun
    case ping =>
      intro operands refused
      unfold pinged at refused
      split at refused <;> cases refused
      exact List.mem_cons_self
    case set =>
      intro operands refused
      unfold assigned at refused
      split at refused <;> cases refused
      exact List.mem_cons_self
    case info =>
      intro operands refused
      unfold informed at refused
      split at refused <;> cases refused
      exact List.mem_cons_self
  unfold resolve at refused
  split at refused
  · cases refused
    exact List.mem_of_getElem? (i := 2) rfl
  · cases refused
    exact List.mem_of_getElem? (i := 2) rfl
  · split at refused
    · cases refused
      exact List.mem_of_getElem? (i := 3) rfl
    · next call found => exact each _ (lookup_mem found) _ refused

end NovaCache.Commands
