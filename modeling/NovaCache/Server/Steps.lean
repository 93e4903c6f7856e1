import NovaCache.Server.Procedures
import Mathlib.Data.Set.Insert

/-! What the server can do in one step, with its guards, and the states that steps lead to.
Invariants are shown for this relation; that the procedures take only such steps is shown
once. Beside the state of the server a step knows where the I/O thread is. -/
namespace NovaCache.Server
open Protocol Interaction

/-- The command that `launch_strand` has taken from its queue, before the pool has it or
while it is executed inline. -/
inductive Hand
  | empty
  | launching (job : Job)
  | running (job : Job)

def Hand.jobs : Hand → List Job
  | .empty => []
  | .launching job | .running job => [job]

structure Position where
  hand : Hand
  /-- The descriptor that has taken a reply and whose strand has not gone on yet. -/
  applying : Option Nat
  /-- The descriptor that was reported readable or accepted, or is read again, and has not
  been read to its end since. -/
  unread : Option Nat
  /-- The descriptor with bytes that have not been parsed. -/
  parsing : Option Nat
  /-- The descriptors that the procedures under way have not finished with. -/
  attended : Set Nat

def Position.resting (attended : Set Nat) : Position := ⟨.empty,none,none,none,attended⟩

def ServerState.put (server : ServerState) (fd : Nat) (connection : Connection) (events : List Event) : ServerState :=
  {server with connections := server.connections.insert fd connection, trace := server.trace ++ events}

namespace Connection

def fail (connection : Connection) : Connection :=
  {connection with output := connection.output ++ protocolErrorFrame, closing := true, readClosed := true}

def receive (connection : Connection) (bytes : Bytes) (now : Int) : Connection :=
  {connection with lastActivity := now, parser := (connection.parser.feed bytes).2}

def enqueue (connection : Connection) (parser : Parser) (request : RespValue) : Connection :=
  {connection with
    parser := parser
    nextRequestSeq := connection.nextRequestSeq + 1
    inflight := connection.inflight + 1
    commandQueue := connection.commandQueue ++ [⟨connection.nextRequestSeq,request⟩]}

def launch (connection : Connection) (rest : List QueuedCommand) : Connection :=
  {connection with commandQueue := rest, strandRunning := true}

/-- The parser stands behind what it has taken off its buffer. -/
def advance (connection : Connection) : Connection := {connection with parser := connection.parser.next.2}

@[simp] theorem advance_id (connection : Connection) : connection.advance.id = connection.id := rfl

/-- Commands wait only behind one that is under way. -/
def Going (connection : Connection) : Prop := connection.commandQueue ≠ [] → connection.strandRunning = true

/-- The connection has nothing left to do. -/
def Idle (connection : Connection) : Prop := connection.output = [] ∧ connection.inflight = 0

/-- The connection is not one to be removed. -/
def Unfinished (connection : Connection) : Prop := connection.closing = true → ¬ connection.Idle

end Connection

/-- What the parser has is neither the beginning of a frame nor a command. -/
def Refused (parser : Parser) : Prop :=
  match parser.next.1 with
  | .incomplete => False
  | .complete request => isCommandRequest request = false
  | .failed _ => True

/-- Steps of one connection that leave its commands and replies alone, with their events.
The end of the stream is met when no bytes are left to be parsed. -/
inductive Change (parsing : Option Nat) (connection : Connection) : List Event → Connection → Prop
  | register (interest : Interest) : Change parsing connection [] {connection with interest := interest}
  | note (place : Place) : Change parsing connection [.met place connection] connection
  | block : Change parsing connection [.readBlocked connection.id] connection
  | send (count : Nat) (now : Int) (possible : count ≤ connection.output.length) :
      Change parsing connection [.sent connection.id (connection.output.take count)]
        {connection with output := connection.output.drop count, lastActivity := now}
  | breaks : Change parsing connection [.sendClosed connection.id] {connection with closing := true, output := []}
  | refuse (active : connection.closing = false) (refused : Refused connection.parser) :
      Change parsing connection [.met .protocolError connection.advance,.protocolError connection.id]
        connection.advance.fail
  | endInside (active : connection.closing = false) (settled : parsing = none) (inside : connection.parser.buffer ≠ []) :
      Change parsing connection [.met .endOfStream connection,.endOfStream connection.id,
        .met .protocolError {connection with readClosed := true},.protocolError connection.id] connection.fail
  | endIdle (active : connection.closing = false) (settled : parsing = none)
      (outside : connection.parser.buffer = []) (idle : connection.Idle) :
      Change parsing connection [.met .endOfStream connection,.endOfStream connection.id]
        {connection with readClosed := true, closing := true}
  | endBusy (active : connection.closing = false) (settled : parsing = none)
      (outside : connection.parser.buffer = []) (busy : ¬ connection.Idle) :
      Change parsing connection [.met .endOfStream connection,.endOfStream connection.id]
        {connection with readClosed := true}

/-- How the loop that reads a connection comes to its end. -/
def ReadEnded (connection : Connection) (trace : List Event) : Prop :=
  connection.readClosed = true ∨ connection.closing = true ∨
    trace.getLast? = some (.readBlocked connection.id) ∨ trace.getLast? = some (.met .readingStopped connection)

def ParseEnded (connection : Connection) (trace : List Event) : Prop :=
  connection.closing = true ∨ connection.parser.next.1 = .incomplete ∨ .met .parsingStopped connection ∈ trace

/-- The end of the stream had been met when the connection had been read again. -/
def LeftOpen (id : Nat) (trace : List Event) : Prop :=
  ∃ front found back, trace = front ++ .met .readAgain found::back ∧ found.id = id ∧ .endOfStream id ∈ front

def Withheld (connection : Connection) (trace : List Event) : Prop :=
  ∃ found, .met .interestWithheld found ∈ trace ∧ found.id = connection.id ∧ found.output = connection.output ∧
    found.inflight = connection.inflight

/-- The I/O thread has decided whether the connection closes and what it waits for. -/
structure Finished (config : ServerConfig) (connection : Connection) (trace : List Event) : Prop where
  closed : connection.closing = true → connection.Idle → LeftOpen connection.id trace
  waits : connection.readClosed = true ∨ connection.closing = true ∨ connection.interest.read = true ∨
    connection.output.length ≥ config.maxOutputBufferBytes ∨ Withheld connection trace

/-- A connection that waits for a report has just been left to wait for it. -/
def Awaiting (connection : Connection) (trace : List Event) : Prop :=
  connection.interest.read = true → ∃ found, trace.getLast? = some (.met .awaiting found) ∧ found.id = connection.id

/-- Why a connection is closed. -/
inductive Closable (config : ServerConfig) (server : ServerState) (fd : Nat) (connection : Connection) : Prop
  | finished (noticed : server.trace.getLast? = some (.met .finished connection)) (closing : connection.closing = true)
      (idle : connection.Idle)
  | faulty (event : FiredEvent) (reported : server.trace.getLast? = some (.reported event)) (here : event.fd = fd)
      (error : event.error = true)
  | inactive (now : Int) (noticed : server.trace.getLast? = some (.met (.idle now) connection))
      (enabled : 0 < config.idleTimeout) (silent : connection.lastActivity < now - config.idleTimeout * 1000000000)
      (waiting : connection.inflight = 0)
  | stopped (noticed : server.trace.getLast? = some (.met .shutdown connection)) (stopping : server.stopping = true)

/-- How the last `accept_ready` since the last report of the listener has ended. It is
forsaken when a connection has been closed after it had ended at the limit. -/
inductive Backlog
  | unreported
  | pending
  | drained
  | full
  | forsaken
  deriving DecidableEq, Repr

def Backlog.step (listener : Nat) (backlog : Backlog) : Event → Backlog
  | .reported event => if event.fd = listener then .pending else backlog
  | .acceptBlocked => .drained
  | .acceptFull => .full
  | .closed _ => if backlog = .full then .forsaken else backlog
  | _ => backlog

def backlog (listener : Nat) (trace : List Event) : Backlog := trace.foldl (Backlog.step listener) .unreported

section moves
variable (config : ServerConfig)

inductive Move : Position → ServerState → Position → ServerState → Prop
  | take {place server} : Move place server place (take server)
  | finish {place server index job reply payload} (running : server.pool.running[index]? = some job)
      (encoded : encode reply = .ok payload) :
      Move place server place (complete job reply payload {server with pool := server.pool.release index})
  | stop {place server} : Move place server place {server with stopping := true}
  | raise {place server} (cause : Cause) :
      Move place server place {server with trace := server.trace ++ [.raised cause]}
  | blocked {place server} (listening : config.listener ∈ place.attended) :
      Move place server {place with attended := place.attended \ {config.listener}}
        {server with trace := server.trace ++ [.acceptBlocked]}
  | full {place server} (listening : config.listener ∈ place.attended)
      (limit : server.connections.entries.length ≥ config.maxConnections) :
      Move place server {place with attended := place.attended \ {config.listener}}
        {server with trace := server.trace ++ [.acceptFull]}
  | report {place server} (event : FiredEvent) (settled : place.unread = none) :
      Move place server {place with
        unread := if event.ready.read ∨ event.hangup then some event.fd else none
        attended := insert event.fd place.attended} {server with trace := server.trace ++ [.reported event]}
  | change {place server fd connection next events} (found : server.connections.lookup fd = some connection)
      (attended : fd ∈ place.attended) (change : Change place.parsing connection events next) :
      Move place server place (server.put fd next events)
  | receive {place server fd connection} (bytes : Bytes) (now : Int)
      (found : server.connections.lookup fd = some connection) (attended : fd ∈ place.attended)
      (settled : place.parsing = none) (unread : place.unread = some fd) (active : connection.closing = false)
      (reading : connection.readClosed = false) (size : bytes.length ≤ 8192) :
      Move place server {place with parsing := some fd}
        (server.put fd (connection.receive bytes now) [.received connection.id bytes])
  | enqueue {place server fd connection request parser} (found : server.connections.lookup fd = some connection)
      (attended : fd ∈ place.attended) (parsing : place.parsing = some fd) (active : connection.closing = false)
      (reading : connection.readClosed = false) (parsed : connection.parser.next = (.complete request,parser))
      (command : isCommandRequest request = true) :
      Move place server place (server.put fd (connection.enqueue parser request) [.parsed connection.id request])
  | parsed {place server fd connection} (found : server.connections.lookup fd = some connection)
      (parsing : place.parsing = some fd) (ended : ParseEnded connection server.trace) (going : connection.Going) :
      Move place server {place with parsing := none} server
  | approach {place server} (fd : Nat) (settled : place.unread = none) :
      Move place server {place with unread := some fd} server
  | read {place server fd} (unread : place.unread = some fd)
      (ended : ∀ connection, server.connections.lookup fd = some connection → ReadEnded connection server.trace) :
      Move place server {place with unread := none} server
  | launch {place server fd connection item rest} (found : server.connections.lookup fd = some connection)
      (attended : fd ∈ place.attended) (free : place.hand = .empty)
      (ready : place.applying = none ∧ connection.strandRunning = false ∨ place.applying = some fd)
      (queue : connection.commandQueue = item::rest) :
      Move place server
        {place with hand := .launching ⟨connection.id,item.sequence,item.request⟩, applying := none}
        (server.put fd (connection.launch rest) [.launched connection.id item.sequence])
  | submit {place server job} (hand : place.hand = .launching job)
      (room : server.pool.jobs.length < server.pool.maxQueueSize) :
      Move place server {place with hand := .empty} {server with
        pool := {server.pool with jobs := server.pool.jobs ++ [job]}
        trace := server.trace ++ [.submitted job.connectionId job.sequence]}
  | start {place server job} (hand : place.hand = .launching job) :
      Move place server {place with hand := .running job}
        {server with trace := server.trace ++ [.started job.connectionId job.sequence]}
  | complete {place server job reply payload} (hand : place.hand = .running job) (encoded : encode reply = .ok payload) :
      Move place server {place with hand := .empty} (complete job reply payload server)
  | strandEnd {place server fd connection} (found : server.connections.lookup fd = some connection)
      (attended : fd ∈ place.attended) (applying : place.applying = some fd) (queue : connection.commandQueue = []) :
      Move place server {place with applying := none}
        (server.put fd {connection with strandRunning := false} [.strandEnded connection.id])
  | apply {place server fd connection completion rest} (now : Int)
      (found : server.connections.lookup fd = some connection) (attended : fd ∈ place.attended)
      (free : place.hand = .empty) (settled : place.applying = none) (own : connection.id = completion.connectionId)
      (draining : server.draining = completion::rest) :
      Move place server {place with applying := some fd}
        {server.put fd (connection.respond config completion now) ([.applied connection.id completion.sequence] ++
          connection.overflow (connection.respond config completion now)) with draining := rest}
  | discard {place server completion rest} (draining : server.draining = completion::rest)
      (gone : ∀ fd connection, server.connections.lookup fd = some connection →
        connection.id ≠ completion.connectionId) : Move place server place {server with draining := rest}
  | drain {place server} (empty : server.draining = []) :
      Move place server place {server with completions := [], draining := server.completions}
  | accept {place server fd} (now : Int) (settled : place.unread = none)
      (unused : server.connections.lookup fd = none) (other : fd ≠ config.listener)
      (listening : config.listener ∈ place.attended)
      (room : server.connections.entries.length < config.maxConnections) :
      Move place server {place with unread := some fd, attended := insert fd place.attended} {server with
        connections := server.connections.insert fd (Connection.new config server.nextConnectionId now)
        nextConnectionId := server.nextConnectionId + 1
        trace := server.trace ++ [.accepted server.nextConnectionId fd]}
  | close {place server fd connection} (found : server.connections.lookup fd = some connection)
      (settled : place.applying = none) (parsed : place.parsing = none) (closable : Closable config server fd connection) :
      Move place server place {server with
        connections := server.connections.erase fd
        trace := server.trace ++ [.closed connection.id]}
  | widen {place server attended} (more : place.attended ⊆ attended)
      (unheard : config.listener ∈ attended → config.listener ∈ place.attended) :
      Move place server {place with attended := attended} server
  | release {place server} (fd : Nat) (settled : place.unread = none) (finished : ∀ connection,
        server.connections.lookup fd = some connection →
          Finished config connection server.trace ∧ Awaiting connection server.trace)
      (stopping : fd = config.listener → server.stopping = true) :
      Move place server {place with attended := place.attended \ {fd}} server

inductive Reached : Position → ServerState → Prop
  | start : Reached (.resting ∅) (ServerState.initial config)
  | next {place server later reached} (before : Reached place server) (move : Move config place server later reached) :
      Reached later reached

end moves

theorem initial_empty {config : ServerConfig} {fd : Nat} {connection : Connection}
    (found : (ServerState.initial config).connections.lookup fd = some connection) : False := by
  cases found

/-- A worker that takes a job changes the pool and records that the job has started. -/
theorem take_eq (server : ServerState) : ∃ pool events,
    take server = {server with pool := pool, trace := server.trace ++ events} ∧
      ∀ event ∈ events, ∃ id sequence, event = .started id sequence := by
  have idle : server = {server with pool := server.pool, trace := server.trace ++ []} := by rw [List.append_nil]
  unfold take
  split
  · exact ⟨_,[],idle,List.forall_mem_nil _⟩
  · split
    · exact ⟨_,[],idle,List.forall_mem_nil _⟩
    · exact ⟨_,_,rfl,List.forall_mem_singleton.mpr ⟨_,_,rfl⟩⟩

theorem take_connections (server : ServerState) : (take server).connections = server.connections := by
  obtain ⟨pool,events,taken,_⟩ := take_eq server
  rw [taken]

theorem take_draining (server : ServerState) : (take server).draining = server.draining := by
  obtain ⟨pool,events,taken,_⟩ := take_eq server
  rw [taken]

theorem take_count (server : ServerState) : (take server).nextConnectionId = server.nextConnectionId := by
  obtain ⟨pool,events,taken,_⟩ := take_eq server
  rw [taken]

theorem take_stopping (server : ServerState) : (take server).stopping = server.stopping := by
  obtain ⟨pool,events,taken,_⟩ := take_eq server
  rw [taken]

theorem take_trace (server : ServerState) : ∃ events, (take server).trace = server.trace ++ events ∧
    ∀ event ∈ events, ∃ id sequence, event = .started id sequence := by
  obtain ⟨pool,events,taken,started⟩ := take_eq server
  exact ⟨events,by rw [taken],started⟩

/-- What an event says of the step that recorded it. -/
def Occurs (place : Position) (server next : ServerState) : Event → Prop
  | .executed id sequence request _ => Job.mk id sequence request ∈ place.hand.jobs ++ server.pool.running
  | .parsed _ request => isCommandRequest request = true
  | .accepted id fd => ∃ connection, next.connections.lookup fd = some connection ∧ connection.id = id
  | .endOfStream id => ∃ fd connection, next.connections.lookup fd = some connection ∧ connection.id = id ∧
      connection.readClosed = true
  | _ => True

theorem Change.occurs {parsing : Option Nat} {connection changed : Connection} {events : List Event} {fd : Nat}
    (change : Change parsing connection events changed) (place : Position) (server next : ServerState)
    (here : next.connections.lookup fd = some changed) : ∀ event ∈ events, Occurs place server next event := by
  cases change with
  | endInside | endIdle | endBusy =>
    have ended : Occurs place server next (.endOfStream connection.id) := ⟨fd,_,here,rfl,rfl⟩
    simp only [List.forall_mem_cons]
    exact ⟨trivial,ended,by simp [Occurs]⟩
  | _ => simp [Occurs]

/-- The trace grows by events that say what happened. -/
theorem Move.trace {config : ServerConfig} {place later : Position} {server next : ServerState}
    (move : Move config place server later next) :
    ∃ events, next.trace = server.trace ++ events ∧ ∀ event ∈ events, Occurs place server next event := by
  cases move with
  | take =>
    obtain ⟨events,grown,started⟩ := take_trace server
    refine ⟨events,grown,fun event member => ?_⟩
    obtain ⟨_,_,rfl⟩ := started event member
    trivial
  | finish running =>
    exact ⟨_,rfl,List.forall_mem_singleton.mpr (List.mem_append_right _ (List.mem_of_getElem? running))⟩
  | complete hand =>
    refine ⟨_,rfl,List.forall_mem_singleton.mpr (List.mem_append_left _ ?_)⟩
    rw [hand]
    exact List.mem_cons_self
  | change _ _ change => exact ⟨_,rfl,change.occurs place server _ (AList.lookup_insert _)⟩
  | enqueue _ _ _ _ _ _ command => exact ⟨_,rfl,List.forall_mem_singleton.mpr command⟩
  | apply =>
    refine ⟨_,rfl,List.forall_mem_append.mpr ⟨List.forall_mem_singleton.mpr trivial,fun event member => ?_⟩⟩
    unfold Connection.overflow at member
    split at member
    · rw [List.mem_singleton.mp member]
      trivial
    · cases member
  | accept => exact ⟨_,rfl,List.forall_mem_singleton.mpr ⟨_,AList.lookup_insert _,rfl⟩⟩
  | stop | parsed | approach | read | discard | drain | widen | release =>
    exact ⟨[],(List.append_nil _).symm,List.forall_mem_nil _⟩
  | raise | blocked | full | report | receive | launch | submit | start | strandEnd | close =>
    exact ⟨_,rfl,List.forall_mem_singleton.mpr trivial⟩

/-- Only the steps of a connection, and accepting and closing one, change the connections. -/
theorem Move.connections {config : ServerConfig} {place later : Position} {server next : ServerState}
    (move : Move config place server later next) :
    next.connections = server.connections ∨
      (∃ fd connection changed, server.connections.lookup fd = some connection ∧
        next.connections = server.connections.insert fd changed) ∨
      (∃ fd connection, server.connections.lookup fd = none ∧ fd ≠ config.listener ∧
        next.connections = server.connections.insert fd connection) ∨
      ∃ fd, next.connections = server.connections.erase fd := by
  cases move with
  | take => exact Or.inl (take_connections server)
  | change found | receive _ _ found | enqueue found | launch found | strandEnd found | apply _ found =>
    exact Or.inr (Or.inl ⟨_,_,_,found,rfl⟩)
  | accept now _ unused other => exact Or.inr (Or.inr (Or.inl ⟨_,_,unused,other,rfl⟩))
  | close => exact Or.inr (Or.inr (Or.inr ⟨_,rfl⟩))
  | _ => exact Or.inl rfl

theorem Move.stopping {config : ServerConfig} {place later : Position} {server next : ServerState}
    (move : Move config place server later next) (stopping : server.stopping = true) :
    next.stopping = true := by
  cases move with
  | take => exact (take_stopping server).trans stopping
  | stop => rfl
  | _ => exact stopping

theorem Reached.listener {config : ServerConfig} {place : Position} {server : ServerState}
    (reached : Reached config place server) : server.connections.lookup config.listener = none := by
  induction reached with
  | start => rfl
  | next _ move ih =>
    rcases move.connections with same | ⟨fd,connection,changed,found,put⟩ | ⟨fd,connection,_,other,put⟩ | ⟨fd,erased⟩
    · rw [same,ih]
    · rw [put,AList.lookup_insert_ne,ih]
      rintro rfl
      cases ih.symm.trans found
    · rw [put,AList.lookup_insert_ne (Ne.symm other),ih]
    · rw [erased]
      by_cases same : config.listener = fd
      · rw [same,AList.lookup_erase]
      · rw [AList.lookup_erase_ne same,ih]

theorem Reached.not_listener {config : ServerConfig} {place : Position} {server : ServerState}
    (reached : Reached config place server) {fd : Nat} {connection : Connection}
    (found : server.connections.lookup fd = some connection) : fd ≠ config.listener := by
  rintro rfl
  cases reached.listener.symm.trans found

/-- What a connection keeps when responses are moved to its output. -/
structure Flushed (connection after : Connection) : Prop where
  id : after.id = connection.id
  parser : after.parser = connection.parser
  requests : after.nextRequestSeq = connection.nextRequestSeq
  queue : after.commandQueue = connection.commandQueue
  running : after.strandRunning = connection.strandRunning
  inflight : after.inflight = connection.inflight
  closes : after.closing = connection.closing ∧ after.readClosed = connection.readClosed ∨
    after.closing = true ∧ after.readClosed = true

theorem flushPending_flushed (config : ServerConfig) (bound : Nat) (connection : Connection) :
    Flushed connection (flushPending config bound connection) := by
  induction bound generalizing connection with
  | zero => exact ⟨rfl,rfl,rfl,rfl,rfl,rfl,Or.inl ⟨rfl,rfl⟩⟩
  | succ bound ih =>
    unfold flushPending
    split
    · exact ⟨rfl,rfl,rfl,rfl,rfl,rfl,Or.inl ⟨rfl,rfl⟩⟩
    · split
      · exact ⟨rfl,rfl,rfl,rfl,rfl,rfl,Or.inr ⟨rfl,rfl⟩⟩
      · exact {ih _ with}

theorem respond_flushed (config : ServerConfig) (completion : Completion) (now : Int) (connection : Connection) :
    Flushed (connection.accept completion) (connection.respond config completion now) :=
  {flushPending_flushed config _ (connection.accept completion) with}

theorem respond_id (config : ServerConfig) (completion : Completion) (now : Int) (connection : Connection) :
    (connection.respond config completion now).id = connection.id :=
  (respond_flushed config completion now connection).id

theorem Change.going {parsing : Option Nat} {connection changed : Connection} {events : List Event}
    (change : Change parsing connection events changed) (going : connection.Going) : changed.Going := by
  cases change <;> exact going

/-- Every connection but the one that is being parsed has commands waiting only behind one that
is under way. -/
def AllGoing (place : Position) (server : ServerState) : Prop :=
  ∀ fd connection, place.parsing ≠ some fd → server.connections.lookup fd = some connection → connection.Going

/-- A step that puts a connection back leaves the others as they were. -/
theorem AllGoing.put {place : Position} {server : ServerState} {fd other : Nat} {old changed connection : Connection}
    (all : AllGoing place server) (lookup : server.connections.lookup other = some old) (settled : place.parsing ≠ some fd)
    (keeps : fd = other → old.Going → changed.Going)
    (found : (server.connections.insert other changed).lookup fd = some connection) : connection.Going := by
  rw [lookup_insert] at found
  split at found
  · next here =>
    cases found
    exact keeps here (all other old (here ▸ settled) lookup)
  · exact all fd connection settled found

theorem Move.going {config : ServerConfig} {place later : Position} {server next : ServerState}
    (move : Move config place server later next) (all : AllGoing place server) : AllGoing later next := by
  intro fd connection settled found
  cases move with
  | take => exact all fd connection settled (take_connections server ▸ found)
  | change lookup _ change => exact all.put lookup settled (fun _ => change.going) found
  | receive bytes now lookup _ free =>
    exact all.put lookup (free ▸ nofun) (fun here => absurd (congrArg some here.symm) settled) found
  | enqueue lookup _ parsing => exact all.put lookup settled (fun here => absurd (here ▸ parsing) settled) found
  | @parsed other old lookup parsing _ going =>
    by_cases here : other = fd
    · subst here
      cases lookup.symm.trans found
      exact going
    · refine all fd connection (fun same => here ?_) found
      exact Option.some.inj (parsing.symm.trans same)
  | launch lookup => exact all.put lookup settled (fun _ _ _ => rfl) found
  | strandEnd lookup _ _ queue =>
    refine all.put lookup settled (fun _ _ => ?_) found
    exact fun waiting => absurd queue waiting
  | @apply other old completion _ now lookup =>
    have flushed := respond_flushed config completion now old
    refine all.put lookup settled (fun _ going waiting => ?_) found
    exact flushed.running.trans (going fun none => waiting (flushed.queue.trans none))
  | accept now =>
    rw [lookup_insert] at found
    split at found
    · cases found
      exact fun waiting => absurd rfl waiting
    · exact all fd connection settled found
  | close => exact all fd connection settled (lookup_erase_some found).2
  | _ => exact all fd connection settled found

theorem Reached.going {config : ServerConfig} {place : Position} {server : ServerState}
    (reached : Reached config place server) : AllGoing place server := by
  induction reached with
  | start => exact fun fd connection _ found => (initial_empty found).elim
  | next _ move ih => exact move.going ih

end NovaCache.Server
