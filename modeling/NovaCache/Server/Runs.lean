import NovaCache.Server.Steps

/-! The procedures of the I/O thread take only steps of the step relation, whatever the
other threads and the sockets do. -/
namespace NovaCache.Server
open Protocol Interaction

def Moment (config : ServerConfig) (server : ServerState) : Prop := ∃ place, Reached config place server

def OtherStep.faulty : OtherStep → Bool
  | .throw => true
  | .finish _ reply => match encode reply with
    | .ok _ => false
    | .error _ => true
  | _ => false

/-- A call fails, or a command throws or has a reply that cannot be encoded. -/
def Input.faulty : Input → Bool
  | .failed => true
  | .others steps => steps.any OtherStep.faulty
  | .reply value => match encode value with
    | .ok _ => false
    | .error _ => true
  | _ => false

/-- An exception comes from a faulty input. -/
def Failure (config : ServerConfig) (possible : Input → Prop) (server : ServerState) : Prop :=
  Moment config server ∧ ∃ input, possible input ∧ input.faulty = true

abbrev Contract (config : ServerConfig) (possible : Input → Prop) {Value : Type} (before : ServerState → Prop)
    (proc : ServerProc Value) (after : Value → ServerState → Prop) : Prop :=
  Triple possible (Moment config) (Failure config possible) before proc after

abbrev Connections := AList (fun _ : Nat => Connection)

/-- The server is where steps lead with the I/O thread at a place, together with what a
procedure knows of the connections. -/
structure At (config : ServerConfig) (place : Position) (batch : List Completion) (shape : Connections → Prop)
    (server : ServerState) : Prop where
  reached : Reached config place server
  draining : server.draining = batch
  shape : shape server.connections

def Present (fd : Nat) (condition : Connection → Prop) (connections : Connections) : Prop :=
  ∃ connection, connections.lookup fd = some connection ∧ condition connection

def anything : Connections → Prop := fun _ => True

def Opened (fd : Nat) : Connections → Prop := Present fd fun _ => True

/-- The loop that reads a connection may go on. -/
def Readable (connection : Connection) : Prop := connection.closing = false ∧ connection.readClosed = false

/-- The loop that parses a connection may go on. -/
structure Parsable (connection : Connection) : Prop where
  readable : Readable connection
  going : connection.Going

variable {config : ServerConfig} {possible : Input → Prop} {place later : Position} {batch : List Completion} {fd : Nat}
  {shape : Connections → Prop} {unread parsing : Option Nat} {attended : Set Nat} {server : ServerState}

namespace At

theorem moment (at_ : At config place batch shape server) : Moment config server := ⟨place,at_.reached⟩

theorem mono {weaker : Connections → Prop} (at_ : At config place batch shape server)
    (implies : ∀ connections, shape connections → weaker connections) : At config place batch weaker server :=
  {at_ with shape := implies _ at_.shape}

theorem forget (at_ : At config place batch shape server) : At config place batch anything server :=
  at_.mono fun _ _ => trivial

theorem known {current : Connection} {condition : Connection → Prop}
    (at_ : At config place batch (Present fd (· = current)) server) (meets : condition current) :
    At config place batch (Present fd condition) server := by
  refine at_.mono ?_
  rintro connections ⟨connection,found,rfl⟩
  exact ⟨connection,found,meets⟩

/-- A step of the I/O thread that leaves the server as it is. -/
theorem go (at_ : At config place batch shape server) (move : Move config place server later server) :
    At config later batch shape server :=
  {at_ with reached := at_.reached.next move}

theorem attend (at_ : At config (.resting attended) batch shape server) (other : fd ≠ config.listener) :
    At config (.resting (insert fd attended)) batch shape server :=
  at_.go (.widen (Set.subset_insert fd attended) fun inside => inside.resolve_left (Ne.symm other))

theorem leave (at_ : At config (.resting (insert fd attended \ {fd})) batch shape server) (other : fd ≠ config.listener) :
    At config (.resting attended) batch shape server :=
  at_.go (.widen (Set.sdiff_singleton_subset_iff.mpr (subset_refl _)) fun inside =>
    ⟨Set.mem_insert_of_mem _ inside,Ne.symm other⟩)

end At

theorem Present.opened {condition : Connection → Prop} {connections : Connections}
    (present : Present fd condition connections) : Opened fd connections := by
  obtain ⟨connection,found,_⟩ := present
  exact ⟨connection,found,trivial⟩

/-- A procedure that does not look at the connections. -/
abbrev Keeps (config : ServerConfig) (possible : Input → Prop) {Value : Type} (proc : ServerProc Value) : Prop :=
  ∀ place batch shape, Contract config possible (At config place batch shape) proc (fun _ => At config place batch shape)

theorem throwFrom_fails {Value : Type} {before : ServerState → Prop} {after : Value → ServerState → Prop} {input : Input}
    (given : possible input) (faulty : input.faulty = true) (secure : ∀ server, before server → Moment config server)
    (cause : Cause) : Contract config possible before (throwFrom cause) after := by
  refine Triple.via (fun _ => Failure config possible) (Triple.alter fun server met => ?_) fun _ =>
    Triple.raise fun server failed => failed
  obtain ⟨place,reached⟩ := secure server met
  exact ⟨⟨place,reached.next (.raise cause)⟩,input,given,faulty⟩

section others
variable {fact : ServerState → Prop} (secure : ∀ server, fact server → Moment config server)
  (taken : ∀ server, fact server → fact (take server))
  (finished : ∀ server index job reply payload, fact server → server.pool.running[index]? = some job →
    encode reply = .ok payload → fact (complete job reply payload {server with pool := server.pool.release index}))
  (stopped : ∀ server : ServerState, fact server → fact {server with stopping := true})
include secure taken finished stopped

theorem otherStep_keeps (step : OtherStep) (excuse : step.faulty = true → ∃ input, possible input ∧ input.faulty = true) :
    Contract config possible fact (otherStep step) (fun _ => fact) := by
  cases step with
  | take => exact Triple.alter taken
  | finish index reply =>
    refine Triple.observe fun observed _ => ?_
    split
    · exact Triple.pure fun server met => met.1
    · next job running =>
      split
      · next fault wrong =>
        obtain ⟨input,given,faulty⟩ := excuse (by rw [OtherStep.faulty,wrong])
        exact throwFrom_fails given faulty (fun server met => secure server met.1) _
      · next payload encoded =>
        refine Triple.alter ?_
        rintro server ⟨met,rfl⟩
        exact finished server index job reply payload met running encoded
  | throw =>
    obtain ⟨input,given,faulty⟩ := excuse rfl
    exact throwFrom_fails given faulty secure _
  | stop => exact Triple.alter stopped

/-- What the steps of other threads keep is kept wherever they may come in. -/
theorem interleave_fact : Contract config possible fact interleave (fun _ => fact) := by
  refine Triple.read secure fun answer given => ?_
  split
  · next steps =>
    refine Triple.strengthen (Triple.weaken (Triple.forEach (fun left server => fact server ∧ left ⊆ steps) ?_ steps)
      fun server met => ⟨met,List.Subset.refl _⟩) fun _ server met => met.1
    rintro step left server inputs permitted ⟨met,inside⟩
    obtain ⟨member,rest⟩ := List.cons_subset.mp inside
    have kept := otherStep_keeps secure taken finished stopped step fun faulty =>
      ⟨.others steps,given,List.any_eq_true.mpr ⟨step,member,faulty⟩⟩
    exact (kept.strengthen fun _ _ after => ⟨after,rest⟩) server inputs permitted met
  · exact Triple.pause secure

end others

theorem At.take (at_ : At config place batch shape server) : At config place batch shape (take server) :=
  ⟨at_.reached.next .take,(take_draining server).trans at_.draining,(take_connections server).symm ▸ at_.shape⟩

theorem interleave_keeps : Keeps config possible interleave := by
  intro place batch shape
  refine interleave_fact (fun _ at_ => at_.moment) (fun _ at_ => at_.take) ?_ ?_
  · exact fun server index job reply payload at_ running encoded =>
      ⟨at_.reached.next (.finish running encoded),at_.draining,at_.shape⟩
  · exact fun server at_ => ⟨at_.reached.next .stop,at_.draining,at_.shape⟩

/-- What a longer trace does not take away stays. -/
theorem interleave_noted {noted : List Event → Prop} (stays : ∀ trace events, noted trace → noted (trace ++ events)) :
    Contract config possible (fun server => At config place batch shape server ∧ noted server.trace) interleave
      (fun _ server => At config place batch shape server ∧ noted server.trace) := by
  refine interleave_fact (fun _ met => met.1.moment) ?_ ?_ ?_
  · intro server met
    obtain ⟨events,grown,_⟩ := take_trace server
    exact ⟨met.1.take,grown ▸ stays _ events met.2⟩
  · exact fun server index job reply payload met running encoded =>
      ⟨⟨met.1.reached.next (.finish running encoded),met.1.draining,met.1.shape⟩,stays _ _ met.2⟩
  · exact fun server met => ⟨⟨met.1.reached.next .stop,met.1.draining,met.1.shape⟩,met.2⟩

theorem steadyNow_same {before : ServerState → Prop} (secure : ∀ server, before server → Moment config server) :
    Contract config possible before steadyNow (fun _ => before) := by
  refine Triple.read secure fun answer given => ?_
  split
  · exact Triple.pure fun server met => met
  · exact Triple.pause secure

theorem systemCall_same {before : ServerState → Prop} (secure : ∀ server, before server → Moment config server) :
    Contract config possible before systemCall (fun _ => before) := by
  refine Triple.read secure fun answer given => ?_
  split
  · exact Triple.pure fun server met => met
  · exact throwFrom_fails given rfl secure _
  · exact Triple.pause secure

/-- The answer is that of the state it leaves. -/
theorem stoppingLoad_keeps : Contract config possible (At config place batch shape) stoppingLoad
    (fun stopping server => At config place batch shape server ∧ server.stopping = stopping) := by
  refine Triple.bind (interleave_keeps place batch shape) fun _ => Triple.observe fun observed _ => ?_
  refine Triple.pure ?_
  rintro server ⟨at_,rfl⟩
  exact ⟨at_,rfl⟩

theorem queueSaturated_keeps : Keeps config possible (queueSaturated config) := by
  intro place batch shape
  refine Triple.bind (interleave_keeps place batch shape) fun _ => ?_
  exact Triple.observe fun _ _ => Triple.pure fun server met => met.1

theorem queueSaturated_noted {noted : List Event → Prop} (stays : ∀ trace events, noted trace → noted (trace ++ events)) :
    Contract config possible (fun server => At config place batch shape server ∧ noted server.trace) (queueSaturated config)
      (fun _ server => At config place batch shape server ∧ noted server.trace) := by
  refine Triple.bind (interleave_noted stays) fun _ => ?_
  exact Triple.observe fun _ _ => Triple.pure fun server met => met.1

theorem connection_run {Value : Type} {next : Connection → ServerProc Value} {found : Connection}
    (lookup : server.connections.lookup fd = some found) (inputs : List Input) :
    (connection fd >>= next).run server inputs = (next found).run server inputs := by
  have here : (connection fd).run server inputs = (.done found inputs,server) := by
    have seen : (Proc.current : ServerProc ServerState).run server inputs = (.done server inputs,server) := rfl
    rw [connection,Proc.bind_run,seen]
    dsimp only
    rw [lookup]
    rfl
  rw [Proc.bind_run,here]

theorem update_run {found : Connection} {change : Connection → Connection} {events : Connection → List Event}
    (lookup : server.connections.lookup fd = some found) (inputs : List Input) :
    (update fd change events).run server inputs = (.done () inputs,server.put fd (change found) (events found)) := by
  rw [update,connection_run lookup]
  rfl

theorem connection_given {Value : Type} {given : ServerState → Prop} {condition : Connection → Prop}
    {next : Connection → ServerProc Value} {after : Value → ServerState → Prop}
    (rest : ∀ connection, condition connection →
      Contract config possible (fun server => At config place batch (Present fd (· = connection)) server ∧ given server)
        (next connection) after) :
    Contract config possible (fun server => At config place batch (Present fd condition) server ∧ given server)
      (connection fd >>= next) after := by
  rintro server inputs given ⟨at_,fact⟩
  obtain ⟨found,lookup,meets⟩ := at_.shape
  rw [connection_run lookup]
  exact rest found meets server inputs given ⟨{at_ with shape := ⟨found,lookup,rfl⟩},fact⟩

theorem connection_then {Value : Type} {condition : Connection → Prop} {next : Connection → ServerProc Value}
    {after : Value → ServerState → Prop}
    (rest : ∀ connection, condition connection →
      Contract config possible (At config place batch (Present fd (· = connection))) (next connection) after) :
    Contract config possible (At config place batch (Present fd condition)) (connection fd >>= next) after :=
  Triple.weaken (@connection_given _ _ _ _ _ _ (fun _ => True) _ _ _ fun connection meets =>
    (rest connection meets).weaken fun _ met => met.1) fun _ at_ => ⟨at_,trivial⟩

/-- What is known of a connection may depend on the trace. -/
theorem for_connection_given {Value : Type} {condition : Connection → List Event → Prop} {proc : ServerProc Value}
    {after : Value → ServerState → Prop}
    (each : ∀ connection, Contract config possible
      (fun server => At config place batch (Present fd (· = connection)) server ∧ condition connection server.trace) proc after) :
    Contract config possible (fun server => At config place batch (Present fd fun connection =>
      condition connection server.trace) server) proc after := by
  intro server inputs given at_
  obtain ⟨connection,found,meets⟩ := at_.shape
  exact each connection server inputs given ⟨{at_ with shape := ⟨connection,found,rfl⟩},meets⟩

theorem for_connection {Value : Type} {condition : Connection → Prop} {proc : ServerProc Value}
    {after : Value → ServerState → Prop}
    (each : ∀ connection, condition connection →
      Contract config possible (At config place batch (Present fd (· = connection))) proc after) :
    Contract config possible (At config place batch (Present fd condition)) proc after :=
  @for_connection_given _ _ _ _ _ _ (fun connection _ => condition connection) _ _
    fun connection server inputs given met => each connection met.2 server inputs given met.1

theorem contains_given {Value : Type} {given : ServerState → Prop} {next : Bool → ServerProc Value}
    {after : Value → ServerState → Prop}
    (present : Contract config possible (fun server => At config place batch (Opened fd) server ∧ given server) (next true) after)
    (absent : Contract config possible (At config place batch fun connections => shape connections ∧ connections.lookup fd = none)
      (next false) after) :
    Contract config possible (fun server => At config place batch shape server ∧ given server) (contains fd >>= next) after := by
  rintro server inputs given ⟨at_,fact⟩
  have followed : (contains fd >>= next).run server inputs =
      (next (server.connections.lookup fd).isSome).run server inputs := rfl
  rw [followed]
  cases found : server.connections.lookup fd with
  | none => exact absent server inputs given {at_ with shape := ⟨at_.shape,found⟩}
  | some connection => exact present server inputs given ⟨{at_ with shape := ⟨connection,found,trivial⟩},fact⟩

theorem contains_then {Value : Type} {next : Bool → ServerProc Value} {after : Value → ServerState → Prop}
    (present : Contract config possible (At config place batch (Opened fd)) (next true) after)
    (absent : Contract config possible (At config place batch fun connections => shape connections ∧ connections.lookup fd = none)
      (next false) after) :
    Contract config possible (At config place batch shape) (contains fd >>= next) after :=
  Triple.weaken (@contains_given _ _ _ _ _ _ _ (fun _ => True) _ _ (present.weaken fun _ met => met.1) absent)
    fun _ at_ => ⟨at_,trivial⟩

/-- A connection that is known to be open is found. -/
theorem contains_opened {Value : Type} {condition : Connection → Prop} {next : Bool → ServerProc Value}
    {after : Value → ServerState → Prop}
    (present : Contract config possible (At config place batch (Present fd condition)) (next true) after) :
    Contract config possible (At config place batch (Present fd condition)) (contains fd >>= next) after := by
  intro server inputs given at_
  obtain ⟨connection,found,_⟩ := at_.shape
  have followed : (contains fd >>= next).run server inputs =
      (next (server.connections.lookup fd).isSome).run server inputs := rfl
  rw [followed,found]
  exact present server inputs given at_

/-- A step of a connection that is known. Its events end the trace then. -/
theorem update_moves (given : List Event → Prop) {current : Connection} {change : Connection → Connection}
    {events : Connection → List Event}
    (move : ∀ server, given server.trace → server.connections.lookup fd = some current →
      Move config place server later (server.put fd (change current) (events current))) :
    Contract config possible (fun server => At config place batch (Present fd (· = current)) server ∧ given server.trace)
      (update fd change events)
      (fun _ server => At config later batch (Present fd (· = change current)) server ∧
        ∃ trace, given trace ∧ server.trace = trace ++ events current) := by
  rintro server inputs given ⟨at_,fact⟩
  obtain ⟨found,lookup,rfl⟩ := at_.shape
  rw [update_run lookup]
  exact ⟨⟨at_.reached.next (move server fact lookup),at_.draining,change found,AList.lookup_insert _,rfl⟩,
    server.trace,fact,rfl⟩

theorem update_steps {current : Connection} {change : Connection → Connection} {events : Connection → List Event}
    (move : ∀ server, server.connections.lookup fd = some current →
      Move config place server later (server.put fd (change current) (events current))) :
    Contract config possible (At config place batch (Present fd (· = current))) (update fd change events)
      (fun _ server => At config later batch (Present fd (· = change current)) server ∧
        events current <:+ server.trace) := by
  refine Triple.weaken (Triple.strengthen (update_moves (fun _ => True) fun server _ found => move server found) fun _ server met => ?_) fun _ at_ => ⟨at_,trivial⟩
  obtain ⟨at_,trace,_,ends⟩ := met
  exact ⟨at_,trace,ends.symm⟩

theorem runInline_keeps (job : Job) :
    Contract config possible (At config {place with hand := .launching job} batch shape) (runInline job)
      (fun _ => At config {place with hand := .empty} batch shape) := by
  refine Triple.via (fun _ => At config {place with hand := .running job} batch shape)
    (Triple.alter fun server at_ => ?_) fun _ => ?_
  · exact ⟨at_.reached.next (.start rfl),at_.draining,at_.shape⟩
  refine Triple.read (fun _ at_ => at_.moment) fun answer given => ?_
  split
  · next reply =>
    split
    · next fault wrong =>
      exact throwFrom_fails given (by rw [Input.faulty,wrong]) (fun _ at_ => at_.moment) _
    · next payload encoded =>
      exact Triple.alter fun server at_ => ⟨at_.reached.next (.complete rfl encoded),at_.draining,at_.shape⟩
  · exact throwFrom_fails given rfl (fun _ at_ => at_.moment) _
  · exact Triple.pause fun _ at_ => at_.moment

theorem submit_keeps (job : Job) :
    Contract config possible (At config {place with hand := .launching job} batch shape) (submit job)
      (fun _ => At config {place with hand := .empty} batch shape) := by
  refine Triple.bind (interleave_keeps _ batch shape) fun _ => Triple.observe fun observed _ => ?_
  unfold ThreadPool.trySubmit
  split
  · next taken =>
    split at taken
    · cases taken
    · next room =>
      cases taken
      refine Triple.alter ?_
      rintro server ⟨at_,rfl⟩
      exact ⟨at_.reached.next (.submit rfl (Nat.lt_of_not_ge room)),at_.draining,at_.shape⟩
  · exact (runInline_keeps job).weaken fun server met => met.1

theorem launchStrand_keeps {applying : Option Nat} {current : Connection} (inside : fd ∈ attended)
    (ready : applying = none ∧ current.strandRunning = false ∨ applying = some fd) (queue : current.commandQueue ≠ []) :
    Contract config possible (At config ⟨.empty,applying,unread,parsing,attended⟩ batch (Present fd (· = current)))
      (launchStrand fd) (fun _ => At config ⟨.empty,none,unread,parsing,attended⟩ batch
        (Present fd fun connection => connection.closing = current.closing ∧
          connection.readClosed = current.readClosed ∧ connection.strandRunning = true)) := by
  refine connection_then ?_
  rintro connection rfl
  split
  · next empty => exact absurd empty queue
  · next item rest queued =>
    refine Triple.bind (update_steps fun server found => .launch found inside rfl ready queued) fun _ => ?_
    refine (@submit_keeps config possible ⟨.empty,none,unread,parsing,attended⟩ _ _ _).weaken fun server met => ?_
    exact met.1.known ⟨rfl,rfl,rfl⟩

theorem enqueueCommand_keeps {current : Connection} {request : RespValue} {parser : Parser} (inside : fd ∈ attended)
    (readable : Readable current) (parsed : current.parser.next = (.complete request,parser))
    (command : isCommandRequest request = true) :
    Contract config possible (At config ⟨.empty,none,unread,some fd,attended⟩ batch (Present fd (· = current)))
      (enqueueCommand fd parser request)
      (fun _ => At config ⟨.empty,none,unread,some fd,attended⟩ batch (Present fd Parsable)) := by
  refine Triple.bind (update_steps fun server found => .enqueue found inside rfl readable.1 readable.2 parsed command) fun _ => ?_
  refine Triple.weaken (connection_then ?_) fun server met => met.1
  rintro connection rfl
  split
  · next running => exact Triple.pure fun server at_ => at_.known ⟨readable,fun _ => running⟩
  · next idle =>
    refine (launchStrand_keeps inside (Or.inl ⟨rfl,by simpa using idle⟩) ?_).strengthen fun _ server at_ => ?_
    · simp
    · refine at_.mono ?_
      rintro connections ⟨connection,found,active,unclosed,running⟩
      exact ⟨connection,found,⟨active.trans readable.1,unclosed.trans readable.2⟩,fun _ => running⟩

/-- Two updates one after the other are one step. -/
theorem put_put (server : ServerState) (fd : Nat) (first second : Connection) (events more : List Event) :
    (server.put fd first events).put fd second more = server.put fd second (events ++ more) := by
  simp only [ServerState.put,AList.insert_insert,List.append_assoc]

/-- The error frame is still to be sent. -/
theorem fail_unfinished (connection : Connection) : connection.fail.Unfinished := by
  intro _ idle
  have empty : connection.output ++ protocolErrorFrame = [] := idle.1
  cases (List.append_eq_nil_iff.mp empty).2

/-- What the parser has refused without taking it stays in its buffer. -/
theorem failProtocol_keeps {current : Connection} (inside : fd ∈ place.attended) (active : current.closing = false)
    (refused : Refused current.parser) (stays : current.parser.next.2 = current.parser) :
    Contract config possible (At config place batch (Present fd (· = current))) (failProtocol fd)
      (fun _ => At config place batch (Present fd (· = current.advance.fail))) := by
  have unmoved : current.advance = current := by rw [Connection.advance,stays]
  intro server inputs given at_
  obtain ⟨known,lookup,rfl⟩ := at_.shape
  have reached := at_.reached.next (.change lookup inside (.refuse active refused))
  rw [failProtocol,update_run lookup]
  rw [unmoved] at reached ⊢
  exact ⟨reached,at_.draining,_,AList.lookup_insert _,rfl⟩

theorem refuseRequest_keeps {current : Connection} {request : RespValue} {parser : Parser} (inside : fd ∈ place.attended)
    (active : current.closing = false) (parsed : current.parser.next = (.complete request,parser))
    (other : isCommandRequest request = false) :
    Contract config possible (At config place batch (Present fd (· = current))) (refuseRequest fd parser)
      (fun _ => At config place batch (Present fd (· = current.advance.fail))) := by
  have refused : Refused current.parser := by
    rw [Refused,parsed]
    exact other
  have moved : current.advance = {current with parser := parser} := by rw [Connection.advance,parsed]
  intro server inputs given at_
  obtain ⟨known,lookup,rfl⟩ := at_.shape
  have reached := at_.reached.next (.change lookup inside (.refuse active refused))
  rw [refuseRequest,Proc.bind_run,update_run lookup]
  dsimp only
  rw [failProtocol,update_run (AList.lookup_insert _),put_put]
  rw [moved] at reached ⊢
  exact ⟨reached,at_.draining,_,AList.lookup_insert _,rfl⟩

/-- What is left of a connection when it has been parsed. -/
structure Halted (connection : Connection) : Prop where
  reads : connection.closing = false → connection.readClosed = false
  unfinished : connection.Unfinished

theorem Readable.unfinished {connection : Connection} (readable : Readable connection) : connection.Unfinished := by
  intro closing
  cases readable.1.symm.trans closing

theorem Readable.halted {connection : Connection} (readable : Readable connection) : Halted connection :=
  ⟨fun _ => readable.2,readable.unfinished⟩

theorem next_failed {parser after : Parser} {fault : Fault} (failed : parser.next = (.failed fault,after)) :
    parser.next.2 = parser := by
  unfold Parser.next at failed ⊢
  split at failed
  · next oversized => rw [if_pos oversized]
  · next fits =>
    rw [if_neg fits]
    split at failed
    · cases failed
    · cases failed
    · rfl

theorem At.parsed {current : Connection}
    (at_ : At config ⟨.empty,none,unread,some fd,attended⟩ batch (Present fd (· = current)) server)
    (ended : ParseEnded current server.trace) (going : current.Going) :
    At config ⟨.empty,none,unread,none,attended⟩ batch (Present fd (· = current)) server := by
  obtain ⟨connection,found,rfl⟩ := at_.shape
  exact at_.go (.parsed found rfl ended going)

theorem At.parsable (at_ : At config place batch (Present fd Readable) server) (settled : place.parsing = none) :
    At config place batch (Present fd Parsable) server := by
  obtain ⟨connection,found,readable⟩ := at_.shape
  have going := at_.reached.going fd connection (settled ▸ nofun) found
  exact {at_ with shape := ⟨connection,found,readable,going⟩}

theorem queueStep_keeps (inside : fd ∈ attended) :
    Contract config possible (At config ⟨.empty,none,unread,some fd,attended⟩ batch (Present fd Parsable)) (queueStep config fd)
      (fun again server =>
        if again then At config ⟨.empty,none,unread,some fd,attended⟩ batch (Present fd Parsable) server
        else At config ⟨.empty,none,unread,none,attended⟩ batch (Present fd Halted) server) := by
  refine Triple.bind (queueSaturated_keeps _ batch _) fun saturated => connection_then ?_
  rintro current ⟨readable,going⟩
  have failed : ∀ server, At config ⟨.empty,none,unread,some fd,attended⟩ batch (Present fd (· = current.advance.fail)) server →
      At config ⟨.empty,none,unread,none,attended⟩ batch (Present fd Halted) server :=
    fun server at_ => (at_.parsed (Or.inl rfl) going).known ⟨(by cases ·),fail_unfinished _⟩
  split
  · refine Triple.bind (update_steps fun server found => .change found inside (.note .parsingStopped)) fun _ => ?_
    refine Triple.pure fun server met => ?_
    exact (met.1.parsed (Or.inr (Or.inr (met.2.mem List.mem_cons_self))) going).known readable.halted
  · split
    · next parser incomplete =>
      refine Triple.pure fun server at_ => ?_
      exact (at_.parsed (Or.inr (Or.inl (congrArg Prod.fst incomplete))) going).known readable.halted
    · next request parser parsed =>
      split
      · next command =>
        exact Triple.bind (enqueueCommand_keeps inside readable parsed command) fun _ => Triple.pure fun server at_ => at_
      · next other =>
        exact Triple.bind (refuseRequest_keeps inside readable.1 parsed (by simpa using other)) fun _ => Triple.pure failed
    · next fault parser wrong =>
      refine Triple.bind (failProtocol_keeps inside readable.1 ?_ (next_failed wrong)) fun _ => Triple.pure failed
      rw [Refused,wrong]
      trivial

theorem queueParsedCommands_keeps (inside : fd ∈ attended) :
    Contract config possible (At config ⟨.empty,none,unread,some fd,attended⟩ batch (Present fd Parsable))
      (queueParsedCommands config fd)
      (fun _ => At config ⟨.empty,none,unread,none,attended⟩ batch (Present fd Halted)) :=
  Triple.loop (fun _ at_ => at_.moment) (queueStep_keeps inside)

theorem readEnd_keeps (inside : fd ∈ place.attended) (settled : place.parsing = none) :
    Contract config possible (At config place batch (Present fd Readable)) (readEnd fd)
      (fun _ server => At config place batch (Present fd fun connection => connection.readClosed = true ∧
        .endOfStream connection.id ∈ server.trace) server) := by
  have noted : ∀ {connection : Connection} {trace more : List Event}, .endOfStream connection.id ∈
      trace ++ ([.met .endOfStream connection,.endOfStream connection.id] ++ more) := by
    intro connection trace more
    exact List.mem_append_right _ (List.mem_append_left _ (List.mem_cons_of_mem _ List.mem_cons_self))
  intro server inputs given at_
  obtain ⟨current,lookup,active,_⟩ := at_.shape
  have first : (server.put fd {current with readClosed := true}
      [.met .endOfStream current,.endOfStream current.id]).connections.lookup fd =
        some {current with readClosed := true} := AList.lookup_insert _
  rw [readEnd,Proc.bind_run,update_run lookup]
  dsimp only
  rw [connection_run first]
  dsimp only
  by_cases outside : current.parser.buffer = []
  · rw [if_neg (by simp [outside])]
    by_cases idle : current.Idle
    · rw [if_pos ⟨idle.2,List.isEmpty_iff.mpr idle.1⟩,update_run first,put_put]
      exact ⟨at_.reached.next (.change lookup inside (.endIdle active settled outside idle)),at_.draining,_,
        AList.lookup_insert _,rfl,noted⟩
    · rw [if_neg fun both => idle ⟨List.isEmpty_iff.mp both.2,both.1⟩]
      exact ⟨at_.reached.next (.change lookup inside (.endBusy active settled outside idle)),at_.draining,_,
        AList.lookup_insert _,rfl,@noted current server.trace []⟩
  · rw [if_pos (by simpa using outside),failProtocol,update_run first,put_put]
    exact ⟨at_.reached.next (.change lookup inside (.endInside active settled outside)),at_.draining,_,
      AList.lookup_insert _,rfl,noted⟩

theorem At.readDone {condition : Connection → Prop} (here : unread = none ∨ unread = some fd)
    (at_ : At config ⟨.empty,none,unread,none,attended⟩ batch (Present fd condition) server)
    (ended : ∀ connection, condition connection → ReadEnded connection server.trace) :
    At config (.resting attended) batch (Present fd condition) server := by
  rcases here with rfl | rfl
  · exact at_
  · refine at_.go (.read rfl fun connection found => ?_)
    obtain ⟨known,lookup,meets⟩ := at_.shape
    obtain rfl : known = connection := Option.some.inj (lookup.symm.trans found)
    exact ended known meets

theorem feed_refused {parser : Parser} {bytes : Bytes} (refused : (parser.feed bytes).1 ≠ .incomplete) :
    Refused (parser.feed bytes).2 ∧ (parser.feed bytes).2.next.2 = (parser.feed bytes).2 := by
  have oversized : (parser.feed bytes).2.bufferOversized = true := by
    unfold Parser.feed at refused ⊢
    split at refused
    · next already => rwa [if_pos already]
    · next fits =>
      split at refused
      · next exceeds => rw [if_neg fits,if_pos exceeds]
      · exact absurd rfl refused
  rw [Refused,Parser.next,if_pos oversized]
  exact ⟨trivial,rfl⟩

/-- A connection that was read is not to be removed, unless the end of its stream was met. -/
def Left (connection : Connection) (trace : List Event) : Prop :=
  connection.Unfinished ∨ .endOfStream connection.id ∈ trace

theorem readStep_keeps (inside : fd ∈ attended) :
    Contract config possible (At config ⟨.empty,none,some fd,none,attended⟩ batch (Present fd Readable)) (readStep config fd)
      (fun again server =>
        if again then At config ⟨.empty,none,some fd,none,attended⟩ batch (Present fd Readable) server
        else At config (.resting attended) batch (Present fd fun connection => Left connection server.trace) server) := by
  refine Triple.bind (queueSaturated_keeps _ batch _) fun saturated => ?_
  split
  · refine for_connection fun current readable => ?_
    refine Triple.bind (update_steps fun server found => .change found inside (.note .readingStopped)) fun _ => ?_
    refine Triple.pure fun server met => ?_
    refine (met.1.readDone (Or.inr rfl) ?_).known (Or.inl readable.unfinished)
    rintro connection rfl
    obtain ⟨front,ends⟩ := met.2
    exact Or.inr (Or.inr (Or.inr (by rw [← ends,List.getLast?_concat])))
  · refine Triple.read (fun server at_ => at_.moment) fun answer given => ?_
    split
    · refine for_connection fun current readable => ?_
      refine Triple.bind (update_steps fun server found => .change found inside .block) fun _ => ?_
      refine Triple.pure fun server met => ?_
      refine (met.1.readDone (Or.inr rfl) ?_).known (Or.inl readable.unfinished)
      rintro connection rfl
      obtain ⟨front,ends⟩ := met.2
      exact Or.inr (Or.inr (Or.inl (by rw [← ends,List.getLast?_concat])))
    · refine Triple.bind (readEnd_keeps inside rfl) fun _ => Triple.pure fun server at_ => ?_
      refine (at_.readDone (Or.inr rfl) fun connection closed => Or.inl closed.1).mono ?_
      exact fun connections ⟨connection,found,closed⟩ => ⟨connection,found,Or.inr closed.2⟩
    · next bytes =>
      split
      · exact Triple.pause fun server at_ => at_.moment
      · next sizes =>
        refine Triple.bind (steadyNow_same fun server at_ => at_.moment) fun now => ?_
        refine Triple.weaken (connection_then fun current parsable => ?_) fun server at_ => at_.parsable rfl
        obtain ⟨readable,going⟩ := parsable
        dsimp only
        have size : bytes.length ≤ 8192 := Nat.le_of_not_gt (not_or.mp sizes).2
        refine Triple.bind (update_steps fun server found => .receive bytes now found inside rfl rfl readable.1 readable.2 size) fun _ => ?_
        split
        · next refused =>
          have failed := @failProtocol_keeps config possible ⟨.empty,none,some fd,some fd,attended⟩ batch fd
            (current.receive bytes now) inside readable.1 (feed_refused refused).1 (feed_refused refused).2
          refine Triple.bind (failed.weaken fun server met => met.1) fun _ => Triple.pure fun server at_ => ?_
          refine ((at_.parsed (Or.inl rfl) going).readDone (Or.inr rfl) ?_).known (Or.inl (fail_unfinished _))
          rintro connection rfl
          exact Or.inl rfl
        · refine Triple.bind ((queueParsedCommands_keeps inside).weaken fun server met => met.1.known ⟨readable,going⟩) fun _ => ?_
          refine connection_then fun after halted => Triple.pure fun server at_ => ?_
          cases closing : after.closing with
          | true =>
            refine (at_.readDone (Or.inr rfl) ?_).known (Or.inl halted.unfinished)
            rintro connection rfl
            exact Or.inr (Or.inl closing)
          | false => exact at_.known ⟨closing,halted.reads closing⟩
    · exact connection_then fun current _ => throwFrom_fails given rfl (fun server at_ => at_.moment) _
    · exact Triple.pause fun server at_ => at_.moment

theorem readLoop_keeps (inside : fd ∈ attended) (here : unread = none ∨ unread = some fd) :
    Contract config possible (At config ⟨.empty,none,unread,none,attended⟩ batch (Present fd Readable))
      (Proc.loop (readStep config fd))
      (fun _ server => At config (.resting attended) batch (Present fd fun connection => Left connection server.trace) server) := by
  refine (Triple.loop (fun _ at_ => at_.moment) (readStep_keeps inside)).weaken fun server at_ => ?_
  rcases here with rfl | rfl
  · exact at_.go (.approach fd rfl)
  · exact at_

theorem readConnection_keeps (inside : fd ∈ attended) (here : unread = none ∨ unread = some fd) :
    Contract config possible (At config ⟨.empty,none,unread,none,attended⟩ batch (Opened fd)) (readConnection config fd)
      (fun _ => At config (.resting attended) batch (Opened fd)) := by
  refine connection_then fun current _ => ?_
  split
  · next unreadable =>
    refine Triple.pure fun server at_ => (at_.readDone here ?_).mono fun _ => Present.opened
    rintro connection rfl
    exact unreadable.imp_right Or.inl
  · next readable =>
    rw [not_or] at readable
    refine Triple.weaken (Triple.strengthen (readLoop_keeps inside here) fun _ server at_ => at_.mono fun _ => Present.opened)
      fun server at_ => at_.known ⟨?_,?_⟩
    · simpa using readable.2
    · simpa using readable.1

/-- A connection that may be read is read to the end. -/
theorem readConnection_reads (inside : fd ∈ attended) :
    Contract config possible (At config (.resting attended) batch (Present fd Readable)) (readConnection config fd)
      (fun _ server => At config (.resting attended) batch (Present fd fun connection => Left connection server.trace) server) := by
  refine connection_then fun current readable => ?_
  rw [if_neg (by simp [readable.1,readable.2])]
  exact (readLoop_keeps inside (Or.inl rfl)).weaken fun server at_ => at_.known readable

/-- The interest that was computed for a connection includes reading only if it may be read, and
misses it only with a reason. -/
structure Computed (config : ServerConfig) (connection : Connection) (interest : Interest) (trace : List Event) : Prop where
  reads : interest.read = true → Readable connection
  waits : connection.readClosed = true ∨ connection.closing = true ∨ interest.read = true ∨
    connection.output.length ≥ config.maxOutputBufferBytes ∨ Withheld connection trace

theorem computeInterest_keeps (current : Connection) (inside : fd ∈ attended) {noted : List Event → Prop}
    (stays : ∀ trace events, noted trace → noted (trace ++ events)) :
    Contract config possible
      (fun server => At config (.resting attended) batch (Present fd (· = current)) server ∧ noted server.trace)
      (computeInterest config fd)
      (fun interest server => At config (.resting attended) batch (Present fd (· = current)) server ∧
        noted server.trace ∧ Computed config current interest server.trace) := by
  refine connection_given ?_
  rintro connection rfl
  split
  · next unreadable =>
    exact Triple.pure fun server met => ⟨met.1,met.2,⟨(by cases ·),unreadable.imp_right Or.inl⟩⟩
  · next readable =>
    have may : Readable connection := by
      rw [not_or] at readable
      exact ⟨by simpa using readable.2,by simpa using readable.1⟩
    refine Triple.bind (queueSaturated_noted stays) fun saturated => ?_
    cases saturated with
    | true =>
      refine Triple.bind (update_moves noted fun server _ found => .change found inside (.note .interestWithheld)) fun _ => ?_
      refine Triple.pure ?_
      rintro server ⟨at_,trace,kept,ends⟩
      rw [ends]
      refine ⟨at_,stays _ _ kept,⟨fun _ => may,Or.inr (Or.inr (Or.inr (Or.inr ?_)))⟩⟩
      exact ⟨connection,List.mem_append_right _ List.mem_cons_self,rfl,rfl,rfl⟩
    | false =>
      refine Triple.pure fun server met => ⟨met.1,met.2,⟨fun _ => may,Or.inr (Or.inr ?_)⟩⟩
      by_cases small : connection.output.length < config.maxOutputBufferBytes
      · exact Or.inl (by simpa using small)
      · exact Or.inr (Or.inl (Nat.le_of_not_lt small))

theorem registerInterest_keeps {current : Connection} (given : List Event → Prop) (inside : fd ∈ attended)
    (interest : Interest) :
    Contract config possible
      (fun server => At config (.resting attended) batch (Present fd (· = current)) server ∧ given server.trace)
      (registerInterest fd interest)
      (fun _ server => At config (.resting attended) batch (Present fd (· = {current with interest := interest})) server ∧
        given server.trace) := by
  refine connection_given ?_
  rintro connection rfl
  split
  · refine Triple.bind (update_moves given fun server _ found => .change found inside (.register interest)) fun _ => ?_
    refine Triple.strengthen (systemCall_same fun server met => met.1.moment) ?_
    rintro _ server ⟨at_,trace,fact,ends⟩
    rw [ends,List.append_nil]
    exact ⟨at_,fact⟩
  · next same =>
    obtain rfl : interest = connection.interest := not_not.mp same
    exact Triple.pure fun server met => met

theorem At.release {current : Connection} (at_ : At config (.resting attended) batch (Present fd (· = current)) server)
    (finished : Finished config current server.trace) (awaiting : Awaiting current server.trace) :
    At config (.resting (attended \ {fd})) batch anything server := by
  obtain ⟨known,lookup,rfl⟩ := at_.shape
  refine (at_.go (.release fd rfl (fun connection found => ?_) fun listener => ?_)).forget
  · obtain rfl : known = connection := Option.some.inj (lookup.symm.trans found)
    exact ⟨finished,awaiting⟩
  · exact absurd listener (at_.reached.not_listener lookup)

theorem LeftOpen.stays {id : Nat} {trace : List Event} (open_ : LeftOpen id trace) (events : List Event) :
    LeftOpen id (trace ++ events) := by
  obtain ⟨front,found,back,rfl,facts⟩ := open_
  exact ⟨front,found,back ++ events,List.append_assoc _ _ _,facts⟩

theorem Finished.stays {connection : Connection} {trace : List Event} (finished : Finished config connection trace)
    (events : List Event) : Finished config connection (trace ++ events) := by
  refine ⟨fun closing idle => ?_,?_⟩
  · exact (finished.closed closing idle).stays events
  · rcases finished.waits with ended | closing | reading | full | ⟨found,member,facts⟩
    · exact Or.inl ended
    · exact Or.inr (Or.inl closing)
    · exact Or.inr (Or.inr (Or.inl reading))
    · exact Or.inr (Or.inr (Or.inr (Or.inl full)))
    · exact Or.inr (Or.inr (Or.inr (Or.inr ⟨found,List.mem_append_left _ member,facts⟩)))

theorem await_keeps (current : Connection) (inside : fd ∈ attended) (interest : Interest) :
    Contract config possible
      (fun server => At config (.resting attended) batch (Present fd (· = {current with interest := interest})) server ∧
        Finished config {current with interest := interest} server.trace) (await fd interest)
      (fun _ => At config (.resting (attended \ {fd})) batch anything) := by
  refine Triple.when (fun reads => ?_) fun unread server met => met.1.release met.2 fun reads => absurd reads unread
  refine Triple.strengthen (update_moves (Finished config {current with interest := interest} ·) fun server _ found =>
    .change found inside (.note .awaiting)) ?_
  rintro _ server ⟨at_,trace,finished,ends⟩
  refine at_.release ?_ fun _ => ?_
  · rw [ends]
    exact finished.stays _
  · rw [ends,List.getLast?_concat]
    exact ⟨_,rfl,rfl⟩

theorem updateInterest_keeps {current : Connection} (inside : fd ∈ attended) (unfinished : current.Unfinished) :
    Contract config possible (At config (.resting attended) batch (Present fd (· = current))) (updateInterest config fd)
      (fun _ => At config (.resting (attended \ {fd})) batch anything) := by
  refine Triple.bind ((@computeInterest_keeps config possible batch fd attended current inside (fun _ => True) fun _ _ _ =>
    trivial).weaken fun server at_ => ⟨at_,trivial⟩) fun interest => ?_
  refine Triple.weaken (?_ : Contract config possible (fun server => At config (.resting attended) batch (Present fd (· = current)) server ∧
    Computed config current interest server.trace) _ _) fun server met => ⟨met.1,met.2.2⟩
  refine connection_given ?_
  rintro connection rfl
  refine Triple.bind (registerInterest_keeps (Computed config connection interest) inside interest) fun _ => ?_
  split
  · next enabling =>
    have reads : interest.read = true := (Bool.and_eq_true_iff.mp enabling).1
    refine Triple.bind ((readConnection_reads inside).weaken fun server met => met.1.known (met.2.reads reads)) fun _ => ?_
    refine for_connection_given fun again => ?_
    refine Triple.bind (update_moves (Left again) fun server _ found => .change found inside (.note .readAgain)) fun _ => ?_
    have stays : ∀ trace events, (again.closing = true → again.Idle → LeftOpen again.id trace) →
        again.closing = true → again.Idle → LeftOpen again.id (trace ++ events) :=
      fun trace events noted closing idle => (noted closing idle).stays events
    refine Triple.bind ((@computeInterest_keeps config possible batch fd attended again inside _ stays).weaken ?_) fun interest => ?_
    · rintro server ⟨at_,trace,left,ends⟩
      refine ⟨at_,fun closing idle => ?_⟩
      exact ⟨trace,again,[],ends,rfl,left.resolve_left fun unfinished => unfinished closing idle⟩
    refine Triple.bind (registerInterest_keeps (fun trace => (again.closing = true → again.Idle → LeftOpen again.id trace) ∧
      Computed config again interest trace) inside interest) fun _ => ?_
    refine Triple.weaken (await_keeps again inside interest) ?_
    rintro server ⟨at_,noted,computed⟩
    exact ⟨at_,noted,computed.waits⟩
  · refine Triple.weaken (await_keeps connection inside interest) ?_
    rintro server ⟨at_,computed⟩
    exact ⟨at_,fun closing idle => absurd idle (unfinished closing),computed.waits⟩

theorem writeStep_keeps (inside : fd ∈ place.attended) :
    Contract config possible (At config place batch (Opened fd)) (writeStep fd) (fun _ => At config place batch (Opened fd)) := by
  refine connection_then fun current _ => ?_
  split
  · exact Triple.pure fun server at_ => at_.known trivial
  · refine Triple.read (fun server at_ => at_.moment) fun answer given => ?_
    split
    · exact Triple.pure fun server at_ => at_.known trivial
    · refine Triple.bind (update_steps fun server found => .change found inside .breaks) fun _ => ?_
      exact Triple.pure fun server met => met.1.known trivial
    · next count =>
      split
      · exact Triple.pause fun server at_ => at_.moment
      · next fine =>
        rw [not_or] at fine
        refine Triple.bind (steadyNow_same fun server at_ => at_.moment) fun now => ?_
        refine Triple.bind (update_steps fun server found =>
          .change found inside (.send count now (Nat.le_of_not_gt fine.2))) fun _ => ?_
        exact Triple.pure fun server met => met.1.known trivial
    · exact throwFrom_fails given rfl (fun server at_ => at_.moment) _
    · exact Triple.pause fun server at_ => at_.moment

theorem writeConnection_keeps (inside : fd ∈ place.attended) :
    Contract config possible (At config place batch (Opened fd)) (writeConnection fd)
      (fun _ => At config place batch (Opened fd)) :=
  Triple.repeats (fun _ at_ => at_.moment) (writeStep_keeps inside)

/-- The server without a connection. -/
def ServerState.shut (server : ServerState) (fd : Nat) : ServerState :=
  match server.connections.lookup fd with
  | none => server
  | some connection => {server with
      connections := server.connections.erase fd
      trace := server.trace ++ [.closed connection.id]}

theorem shut_lookup {other : Nat} {connection : Connection}
    (found : (server.shut fd).connections.lookup other = some connection) :
    server.connections.lookup other = some connection ∧ other ≠ fd := by
  unfold ServerState.shut at found
  split at found
  · next gone =>
    refine ⟨found,?_⟩
    rintro rfl
    cases gone.symm.trans found
  · obtain ⟨different,kept⟩ := lookup_erase_some found
    exact ⟨kept,different⟩

theorem At.shut (settled : place.applying = none) (parsed : place.parsing = none) (at_ : At config place batch shape server)
    (closable : ∀ connection, server.connections.lookup fd = some connection → Closable config server fd connection) :
    At config place batch (fun connections => connections.lookup fd = none) (server.shut fd) := by
  unfold ServerState.shut
  split
  · next gone => exact {at_ with shape := gone}
  · next connection found =>
    exact ⟨at_.reached.next (.close found settled parsed (closable connection found)),at_.draining,AList.lookup_erase fd _⟩

theorem At.gone (at_ : At config (.resting attended) batch (fun connections => connections.lookup fd = none) server)
    (stopping : fd = config.listener → server.stopping = true) :
    At config (.resting (attended \ {fd})) batch anything server := by
  refine (at_.go (.release fd rfl (fun connection found => ?_) stopping)).forget
  cases at_.shape.symm.trans found

/-- The server behind `look`. -/
def ServerState.look (server : ServerState) (place : Place) (fd : Nat) : ServerState :=
  match server.connections.lookup fd with
  | none => server
  | some found => server.put fd found [.met place found]

/-- A connection is noted and closed. -/
theorem At.noted {noted : Place} {current : Connection} (at_ : At config (.resting attended) batch shape server)
    (inside : fd ∈ attended) (found : server.connections.lookup fd = some current)
    (closable : Closable config (server.put fd current [.met noted current]) fd current) :
    At config (.resting (attended \ {fd})) batch anything ((server.look noted fd).shut fd) := by
  have looked : server.look noted fd = server.put fd current [.met noted current] := by
    rw [ServerState.look,found]
  have kept : At config (.resting attended) batch anything (server.put fd current [.met noted current]) :=
    ⟨at_.reached.next (.change found inside (.note noted)),at_.draining,trivial⟩
  have gone : At config (.resting attended) batch (fun connections => connections.lookup fd = none)
      ((server.put fd current [.met noted current]).shut fd) := by
    refine At.shut rfl rfl kept fun connection lookup => ?_
    rw [ServerState.put,AList.lookup_insert] at lookup
    cases lookup
    exact closable
  rw [looked]
  exact gone.gone fun listener => absurd listener (at_.reached.not_listener found)

theorem finishIfIdle_keeps (inside : fd ∈ attended) :
    Contract config possible (At config (.resting attended) batch (Opened fd)) (finishIfIdle config fd)
      (fun _ => At config (.resting (attended \ {fd})) batch anything) := by
  refine connection_then fun current _ => ?_
  split
  · next done =>
    refine Triple.via (fun _ looked => ∃ server, At config (.resting attended) batch (Present fd (· = current)) server ∧
      looked = server.look .finished fd) (Triple.alter fun server at_ => ⟨server,at_,rfl⟩) fun _ => Triple.alter ?_
    rintro _ ⟨server,at_,rfl⟩
    obtain ⟨known,lookup,rfl⟩ := at_.shape
    exact at_.noted inside lookup
      (.finished (List.getLast?_concat ..) done.1 ⟨List.isEmpty_iff.mp done.2.1,done.2.2⟩)
  · next remaining =>
    refine updateInterest_keeps inside fun closing idle => remaining ?_
    exact ⟨closing,List.isEmpty_iff.mpr idle.1,idle.2⟩

theorem continueStrand_keeps (inside : fd ∈ attended) :
    Contract config possible (At config ⟨.empty,some fd,none,none,attended⟩ batch (Opened fd)) (continueStrand fd)
      (fun _ => At config (.resting attended) batch (Opened fd)) := by
  refine connection_then fun current _ => ?_
  split
  · next empty =>
    have queue : current.commandQueue = [] := List.isEmpty_iff.mp empty
    exact (update_steps fun server found => .strandEnd found inside rfl queue).strengthen
      fun _ server met => met.1.known trivial
  · next remaining =>
    refine (launchStrand_keeps inside (Or.inr rfl) fun empty => remaining ?_).strengthen
      fun _ server at_ => at_.mono fun _ => Present.opened
    exact List.isEmpty_iff.mpr empty

theorem findConnection_some {id : Nat} (found : findConnection server id = some fd) :
    Present fd (fun connection => connection.id = id) server.connections := by
  obtain ⟨⟨fd,connection⟩,entry,rfl⟩ := Option.map_eq_some_iff.mp found
  obtain ⟨same,member⟩ := List.find?_eq_some_iff_append.mp entry
  exact ⟨connection,AList.mem_lookup_iff.mpr (List.mem_of_find?_eq_some entry),by simpa using same⟩

theorem findConnection_none {id : Nat} {connection : Connection} (missing : findConnection server id = none)
    (found : server.connections.lookup fd = some connection) : connection.id ≠ id := by
  have all := List.find?_eq_none.mp (Option.map_eq_none_iff.mp missing)
  simpa using all _ (AList.mem_lookup_iff.mp found)

theorem applyCompletion_keeps (completion : Completion) :
    Contract config possible (At config (.resting attended) (completion::batch) anything) (applyCompletion config completion)
      (fun _ => At config (.resting attended) batch anything) := by
  refine Triple.observe fun observed known => ?_
  split
  · next missing =>
    -- the connection is gone, and its reply with it
    refine Triple.alter ?_
    rintro server ⟨at_,rfl⟩
    have tail : server.draining.tail = batch := by rw [at_.draining]; rfl
    refine ⟨?_,tail,trivial⟩
    rw [tail]
    exact at_.reached.next (.discard at_.draining fun fd connection found => findConnection_none missing found)
  · next fd found =>
    have inside : fd ∈ insert fd attended := Set.mem_insert fd attended
    have other : fd ≠ config.listener := by
      obtain ⟨connection,lookup,_⟩ := findConnection_some found
      exact known.reached.not_listener lookup
    refine Triple.weaken (?_ : Contract config possible (At config (.resting (insert fd attended)) (completion::batch)
      (Present fd fun connection => connection.id = completion.connectionId)) _ _) ?_
    · refine Triple.bind (steadyNow_same fun server at_ => at_.moment) fun now => connection_then fun current own => ?_
      refine Triple.via (fun _ => At config ⟨.empty,some fd,none,none,insert fd attended⟩ batch (Opened fd))
        (Triple.alter fun server at_ => ?_) fun _ => ?_
      · obtain ⟨known,lookup,rfl⟩ := at_.shape
        have tail : server.draining.tail = batch := by rw [at_.draining]; rfl
        refine ⟨?_,tail,_,AList.lookup_insert _,trivial⟩
        rw [tail]
        exact at_.reached.next (.apply now lookup inside rfl rfl own at_.draining)
      refine connection_then fun answered _ => ?_
      refine Triple.via (fun _ => At config ⟨.empty,some fd,none,none,insert fd attended⟩ batch (Opened fd))
        (Triple.when ?_ ?_) fun _ => ?_
      · exact fun _ => (writeConnection_keeps inside).weaken fun server at_ => at_.known trivial
      · exact fun _ server at_ => at_.known trivial
      · refine contains_opened ?_
        refine Triple.bind (continueStrand_keeps inside) fun _ => ?_
        exact (finishIfIdle_keeps inside).strengthen fun _ server at_ => at_.leave other
    · rintro server ⟨at_,rfl⟩
      exact {at_.attend other with shape := findConnection_some found}

/-- Between two procedures no batch is being applied. -/
abbrev KeepsAll (config : ServerConfig) (possible : Input → Prop) {Value : Type} (proc : ServerProc Value) : Prop :=
  ∀ attended, Contract config possible (At config (.resting attended) [] anything) proc
    (fun _ => At config (.resting attended) [] anything)

theorem drainStep_keeps : KeepsAll config possible (drainStep config) := by
  intro attended
  refine Triple.bind (interleave_keeps _ [] anything) fun _ => Triple.observe fun observed _ => ?_
  dsimp only
  split
  · exact Triple.pure fun server met => met.1
  · refine Triple.via (fun _ => At config (.resting attended) observed.completions anything) (Triple.alter ?_) fun _ => ?_
    · rintro server ⟨at_,rfl⟩
      exact ⟨at_.reached.next (.drain at_.draining),rfl,trivial⟩
    · refine Triple.bind (Triple.forEach (fun batch => At config (.resting attended) batch anything) ?_ _) fun _ => ?_
      · exact fun completion rest => applyCompletion_keeps completion
      · exact Triple.pure fun server at_ => at_

theorem drainCompletions_keeps : KeepsAll config possible (drainCompletions config) :=
  fun attended => Triple.repeats (fun _ at_ => at_.moment) (drainStep_keeps attended)

theorem finishWhen_keeps (open_ : Bool) (inside : fd ∈ attended) (other : fd ≠ config.listener)
    (known : ∀ connections, shape connections → if open_ then Opened fd connections else connections.lookup fd = none) :
    Contract config possible (At config (.resting attended) batch shape) (Proc.when open_ (finishIfIdle config fd))
      (fun _ => At config (.resting (attended \ {fd})) batch anything) := by
  refine Triple.when (fun holds => ?_) fun fails server at_ => ?_
  · simp only [holds,if_true] at known
    exact (finishIfIdle_keeps inside).weaken fun server at_ => at_.mono known
  · simp only [fails] at known
    exact (at_.mono known).gone fun listener => absurd listener other

/-- The loop of `accept_ready` is left by the flag, at the limit, or with nothing to accept; the
listener is attended to until then. -/
theorem acceptStep_keeps :
    Contract config possible (At config (.resting (insert config.listener attended)) [] anything) (acceptStep config)
      (fun again => if again then At config (.resting (insert config.listener attended)) [] anything
        else At config (.resting (insert config.listener attended \ {config.listener})) [] anything) := by
  have listening : config.listener ∈ insert config.listener attended := Set.mem_insert _ _
  refine Triple.bind stoppingLoad_keeps fun stopping => ?_
  split
  · next stopped =>
    refine Triple.pure fun server met => ?_
    exact At.gone {met.1 with shape := met.1.reached.listener} fun _ => met.2.trans stopped
  · refine Triple.weaken (?_ : Contract config possible
      (At config (.resting (insert config.listener attended)) [] anything) _ _) fun server met => met.1
    refine Triple.observe fun observed _ => ?_
    split
    · next limit =>
      refine Triple.bind (Triple.alter ?_) fun _ => Triple.pure fun server at_ => at_
      rintro server ⟨at_,rfl⟩
      exact ⟨at_.reached.next (.full listening limit),at_.draining,trivial⟩
    · next room =>
      refine Triple.weaken (?_ : Contract config possible (At config (.resting (insert config.listener attended)) []
        fun connections => connections.entries.length < config.maxConnections) _ _) ?_
      · refine Triple.read (fun server at_ => at_.moment) fun answer given => ?_
        split
        · refine Triple.bind (Triple.alter fun server at_ => ?_) fun _ => Triple.pure fun server at_ => at_
          exact ⟨at_.reached.next (.blocked listening),at_.draining,trivial⟩
        · next fd =>
          refine contains_then ?_ ?_
          · simp only [true_or,if_true]
            exact Triple.pause fun server at_ => at_.moment
          · split
            · exact Triple.pause fun server at_ => at_.moment
            · next usable =>
              rw [not_or] at usable
              have inside : fd ∈ insert fd (insert config.listener attended) := Set.mem_insert _ _
              refine Triple.bind (systemCall_same fun server at_ => at_.moment) fun _ => ?_
              refine Triple.bind (steadyNow_same fun server at_ => at_.moment) fun now => ?_
              refine Triple.bind (systemCall_same fun server at_ => at_.moment) fun _ => ?_
              refine Triple.via (fun _ => At config ⟨.empty,none,some fd,none,insert fd (insert config.listener attended)⟩ []
                (Opened fd)) (Triple.alter fun server at_ => ?_) fun _ => ?_
              · refine ⟨at_.reached.next ?_,at_.draining,_,AList.lookup_insert _,trivial⟩
                exact .accept now rfl at_.shape.2 usable.2 listening at_.shape.1
              refine Triple.bind (readConnection_keeps inside (Or.inr rfl)) fun _ => ?_
              refine Triple.bind ((drainCompletions_keeps _).weaken fun server at_ => at_.forget) fun _ => ?_
              refine contains_then ?_ ?_
              · refine Triple.bind (finishWhen_keeps true inside usable.2 fun _ opened => opened) fun _ => ?_
                exact Triple.pure fun server at_ => at_.leave usable.2
              · refine Triple.bind (finishWhen_keeps false inside usable.2 fun _ both => both.2) fun _ => ?_
                exact Triple.pure fun server at_ => at_.leave usable.2
        · exact throwFrom_fails given rfl (fun server at_ => at_.moment) _
        · exact Triple.pause fun server at_ => at_.moment
      · rintro server ⟨at_,rfl⟩
        exact {at_ with shape := not_le.mp room}

theorem acceptReady_keeps :
    Contract config possible (At config (.resting (insert config.listener attended)) [] anything) (acceptReady config)
      (fun _ => At config (.resting (insert config.listener attended \ {config.listener})) [] anything) := by
  refine Triple.loop (fun _ at_ => at_.moment) (acceptStep_keeps.strengthen fun again server met => ?_)
  cases again <;> exact met

/-- Nothing is left to read from a descriptor without a connection. -/
theorem At.absent (here : unread = none ∨ unread = some fd)
    (at_ : At config ⟨.empty,none,unread,none,attended⟩ [] shape server) (gone : server.connections.lookup fd = none) :
    At config (.resting attended) [] (fun connections => connections.lookup fd = none) server := by
  rcases here with rfl | rfl
  · exact {at_ with shape := gone}
  · refine {at_.go (.read rfl fun connection found => ?_) with shape := gone}
    cases gone.symm.trans found

/-- The place at which the I/O thread handles an event. -/
def Position.handling (event : FiredEvent) (attended : Set Nat) : Position :=
  ⟨.empty,none,if event.ready.read ∨ event.hangup then some event.fd else none,none,insert event.fd attended⟩

theorem handling_unread (event : FiredEvent) : (if event.ready.read ∨ event.hangup then some event.fd else none) = none ∨
    (if event.ready.read ∨ event.hangup then some event.fd else none) = some event.fd := by
  split
  · exact Or.inr rfl
  · exact Or.inl rfl

theorem handleConnectionEvent_keeps (event : FiredEvent) (other : event.fd ≠ config.listener) :
    Contract config possible (fun server => At config (.handling event attended) [] anything server ∧
        server.trace.getLast? = some (.reported event)) (handleConnectionEvent config event)
      (fun _ => At config (.resting attended) [] anything) := by
  have inside : event.fd ∈ insert event.fd attended := Set.mem_insert _ _
  have leave : ∀ {server}, At config (.resting (insert event.fd attended)) []
      (fun connections => connections.lookup event.fd = none) server → At config (.resting attended) [] anything server :=
    fun at_ => (at_.gone fun listener => absurd listener other).leave other
  refine contains_given ?_ (Triple.pure fun server at_ => leave (at_.absent (handling_unread event) at_.shape.2))
  change Contract config possible _ (if event.error then _ else _) _
  split
  · next error =>
    refine Triple.alter fun server met => ?_
    have shut := At.shut rfl rfl met.1 fun connection found => .faulty event met.2 rfl error
    exact leave (shut.absent (handling_unread event) shut.shape)
  · refine Triple.via (fun _ => At config (.resting (insert event.fd attended)) [] anything) (Triple.when ?_ ?_) fun _ => ?_
    · intro _
      refine Triple.bind ((readConnection_keeps inside (handling_unread event)).weaken fun server met => met.1) fun _ => ?_
      exact (drainCompletions_keeps _).weaken fun server at_ => at_.forget
    · intro unreadable server met
      have rested : Position.handling event attended = .resting (insert event.fd attended) := by
        rw [Position.handling,if_neg unreadable]
        rfl
      exact rested ▸ met.1.forget
    · refine contains_then ?_ (Triple.pure fun server at_ => ?_)
      · refine Triple.bind (Triple.when (fun _ => writeConnection_keeps inside) fun _ server at_ => at_) fun _ => ?_
        refine contains_then ?_ ?_
        · exact (finishWhen_keeps true inside other fun _ opened => opened).strengthen fun _ server at_ => at_.leave other
        · exact (finishWhen_keeps false inside other fun _ both => both.2).strengthen fun _ server at_ =>
            at_.leave other
      · exact leave (at_.mono fun _ both => both.2)

theorem handleEvent_keeps (event : FiredEvent) (unheard : config.listener ∉ attended) :
    Contract config possible (At config (.resting attended) [] anything) (handleEvent config event)
      (fun _ => At config (.resting attended) [] anything) := by
  refine Triple.via (fun _ server => At config (.handling event attended) [] anything server ∧
    server.trace.getLast? = some (.reported event)) (Triple.alter fun server at_ => ?_) fun _ => ?_
  · exact ⟨⟨at_.reached.next (.report event rfl),at_.draining,trivial⟩,List.getLast?_concat⟩
  · split
    · next listener =>
      -- the listener is attended to until `accept_ready` returns
      have accepts := @acceptReady_keeps config possible attended
      rw [Set.insert_sdiff_self_of_notMem unheard,← listener] at accepts
      refine accepts.weaken fun server met => (met.1.absent (handling_unread event) ?_).forget
      rw [listener]
      exact met.1.reached.listener
    · next other => exact handleConnectionEvent_keeps event other

theorem look_lookup (server : ServerState) (noted : Place) (fd other : Nat) :
    (server.look noted fd).connections.lookup other = server.connections.lookup other := by
  unfold ServerState.look
  split
  · rfl
  · next found lookup =>
    rw [ServerState.put,lookup_insert]
    split
    · next here => rw [here,lookup]
    · rfl

theorem shut_stopping (server : ServerState) (noted : Place) (fd : Nat) :
    ((server.look noted fd).shut fd).stopping = server.stopping := by
  have looked : (server.look noted fd).stopping = server.stopping := by
    unfold ServerState.look
    split <;> rfl
  rw [← looked,ServerState.shut]
  split <;> rfl

/-- A connection is noted, is attended to for that long, and is closed. -/
theorem At.dismiss {noted : Place} (at_ : At config (.resting attended) batch anything server)
    (closable : ∀ connection, server.connections.lookup fd = some connection →
      Closable config (server.put fd connection [.met noted connection]) fd connection) :
    At config (.resting attended) batch anything ((server.look noted fd).shut fd) := by
  cases found : server.connections.lookup fd with
  | none =>
    rw [ServerState.look,found]
    refine (At.shut rfl rfl at_ fun connection lookup => ?_).forget
    cases found.symm.trans lookup
  | some current =>
    have other := at_.reached.not_listener found
    exact ((at_.attend other).noted (Set.mem_insert fd attended) found (closable current found)).leave other

/-- Connections are noted and closed one by one. -/
theorem dismiss_keeps {noted : Place} {facts : List Nat → ServerState → Prop}
    (closable : ∀ fd fds server connection, facts (fd::fds) server → server.connections.lookup fd = some connection →
      Closable config (server.put fd connection [.met noted connection]) fd connection)
    (stays : ∀ fd fds server, facts (fd::fds) server → facts fds ((server.look noted fd).shut fd)) (fds : List Nat) :
    Contract config possible (fun server => At config (.resting attended) [] anything server ∧ facts fds server)
      (Proc.forEach (fun fd => do look noted fd; closeConnection fd) fds)
      (fun _ server => At config (.resting attended) [] anything server ∧ facts [] server) := by
  refine Triple.forEach (fun fds server => At config (.resting attended) [] anything server ∧ facts fds server)
    (fun fd fds => ?_) fds
  refine Triple.via (fun _ looked => ∃ server, (At config (.resting attended) [] anything server ∧ facts (fd::fds) server) ∧
    looked = server.look noted fd) (Triple.alter fun server met => ⟨server,met,rfl⟩) fun _ => Triple.alter ?_
  rintro _ ⟨server,⟨at_,known⟩,rfl⟩
  exact ⟨at_.dismiss (closable fd fds server · known),stays fd fds server known⟩

theorem closeIdleConnections_keeps : KeepsAll config possible (closeIdleConnections config) := by
  intro attended
  unfold closeIdleConnections
  split
  · exact Triple.pure fun server at_ => at_
  · next enabled =>
    refine Triple.bind (steadyNow_same fun server at_ => at_.moment) fun now => Triple.observe fun observed _ => ?_
    have closes := @dismiss_keeps config possible attended (.idle now) (fun fds server => ∀ fd ∈ fds, ∀ connection,
      server.connections.lookup fd = some connection →
        connection.lastActivity < now - config.idleTimeout * 1000000000 ∧ connection.inflight = 0) ?_ ?_
    · refine ((closes _).weaken ?_).strengthen fun _ server met => met.1
      rintro server ⟨at_,rfl⟩
      refine ⟨at_,fun fd member connection found => ?_⟩
      obtain ⟨⟨key,entry⟩,kept,rfl⟩ := List.mem_map.mp member
      obtain ⟨inside,inactive⟩ := List.mem_filter.mp kept
      obtain rfl : entry = connection := Option.some.inj ((AList.mem_lookup_iff.mpr inside).symm.trans found)
      simpa using inactive
    · intro fd fds server connection reasons found
      obtain ⟨silent,waiting⟩ := reasons fd List.mem_cons_self connection found
      exact .inactive now (List.getLast?_concat ..) (Int.lt_of_not_ge enabled) silent waiting
    · intro fd fds server reasons other member connection found
      refine reasons other (List.mem_cons_of_mem _ member) connection ?_
      exact (look_lookup server (.idle now) fd other).symm.trans (shut_lookup found).1

theorem runStep_keeps : Contract config possible (At config (.resting ∅) [] anything) (runStep config)
    (fun again server => At config (.resting ∅) [] anything server ∧ (again = false → server.stopping = true)) := by
  refine Triple.bind stoppingLoad_keeps fun stopping => ?_
  split
  · next stopped => exact Triple.pure fun server met => ⟨met.1,fun _ => met.2.trans stopped⟩
  · refine Triple.read (fun server met => met.1.moment) fun answer given => ?_
    refine Triple.weaken (?_ : Contract config possible (At config (.resting ∅) [] anything) _ _) fun server met => met.1
    split
    · next events =>
      refine Triple.bind stoppingLoad_keeps fun later => ?_
      split
      · next stopped => exact Triple.pure fun server met => ⟨met.1,fun _ => met.2.trans stopped⟩
      · refine Triple.bind ((drainCompletions_keeps _).weaken fun server met => met.1) fun _ => ?_
        refine Triple.bind (Triple.forEach (fun _ => At config (.resting ∅) [] anything) ?_ events) fun _ => ?_
        · exact fun event _ => handleEvent_keeps event (Set.notMem_empty _)
        refine Triple.bind (drainCompletions_keeps ∅) fun _ => ?_
        refine Triple.bind (closeIdleConnections_keeps ∅) fun _ => ?_
        exact Triple.pure fun server at_ => ⟨at_,nofun⟩
    · exact throwFrom_fails given rfl (fun server at_ => at_.moment) _
    · exact Triple.pause fun server at_ => at_.moment

theorem run_keeps : Contract config possible (At config (.resting ∅) [] anything) (run config)
    (fun _ server => At config (.resting ∅) [] anything server ∧ server.stopping = true) := by
  refine Triple.via (fun _ server => At config (.resting ∅) [] anything server ∧ server.stopping = true)
    (Triple.loop (fun _ at_ => at_.moment) (runStep_keeps.strengthen ?_)) fun _ => ?_
  · rintro again server ⟨at_,stopped⟩
    cases again with
    | true => exact at_
    | false => exact ⟨at_,stopped rfl⟩
  · refine Triple.observe fun observed _ => ?_
    have closes := @dismiss_keeps config possible ∅ .shutdown (fun _ server => server.stopping = true)
      (fun _ _ _ _ stopped _ => .stopped (List.getLast?_concat ..) stopped)
      (fun fd _ server stopped => (shut_stopping server .shutdown fd).trans stopped)
    refine Triple.bind ((closes _).weaken fun server met => met.1) fun _ => ?_
    refine interleave_fact (fun _ met => met.1.moment) ?_ ?_ ?_
    · exact fun server met => ⟨met.1.take,(take_stopping server).trans met.2⟩
    · exact fun server index job reply payload met running encoded =>
        ⟨⟨met.1.reached.next (.finish running encoded),met.1.draining,met.1.shape⟩,met.2⟩
    · exact fun server met => ⟨⟨met.1.reached.next .stop,met.1.draining,met.1.shape⟩,rfl⟩

theorem at_initial (config : ServerConfig) : At config (.resting ∅) [] anything (ServerState.initial config) :=
  ⟨.start,rfl,trivial⟩

/-- The state in which a run of the server has read these inputs. -/
def stateAfter (config : ServerConfig) (inputs : List Input) : ServerState :=
  ((run config).run (ServerState.initial config) inputs).2

/-- Every moment of every run is one that steps lead to. -/
theorem run_moment (config : ServerConfig) (inputs : List Input) : Moment config (stateAfter config inputs) := by
  unfold stateAfter
  have result := @run_keeps config (fun _ => True) (ServerState.initial config) inputs (fun _ _ => trivial) (at_initial config)
  rcases ran : (run config).run (ServerState.initial config) inputs with ⟨_ | _ | _ | _,reached⟩ <;> rw [ran] at result
  · exact result.1.moment
  · exact result
  · exact result.1
  · exact result.elim

/-- One iteration of `run` after which the loop goes on. -/
def iteration (config : ServerConfig) (server : ServerState) (inputs : List Input) : Option ServerState :=
  match (runStep config).run server inputs with
  | (.done true _,next) => some next
  | _ => none

/-- The state between two iterations of `run`, after some with these inputs. -/
def iterations (config : ServerConfig) (rounds : List (List Input)) : Option ServerState :=
  rounds.foldlM (iteration config) (ServerState.initial config)

theorem iteration_at {next : ServerState} {inputs : List Input} (at_ : At config (.resting ∅) [] anything server)
    (ran : iteration config server inputs = some next) : At config (.resting ∅) [] anything next := by
  have result := @runStep_keeps config (fun _ => True) server inputs (fun _ _ => trivial) at_
  unfold iteration at ran
  split at ran
  · next stepped =>
    rw [stepped] at result
    cases ran
    exact result.1
  · cases ran

theorem iterations_at {rounds : List (List Input)} (ran : iterations config rounds = some server) :
    At config (.resting ∅) [] anything server := by
  have from_ : ∀ (rounds : List (List Input)) (start : ServerState), At config (.resting ∅) [] anything start →
      rounds.foldlM (iteration config) start = some server → At config (.resting ∅) [] anything server := by
    intro rounds
    induction rounds with
    | nil =>
      rintro start at_ ⟨⟩
      exact at_
    | cons inputs rounds ih =>
      intro start at_ ran
      obtain ⟨next,first,rest⟩ := Option.bind_eq_some_iff.mp ran
      exact ih next (iteration_at at_ first) rest
  exact from_ rounds _ (at_initial config) ran

end NovaCache.Server
