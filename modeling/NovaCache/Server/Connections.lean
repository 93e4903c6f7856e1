import NovaCache.Server.Strand

/-! What a step makes of one connection, and what follows for the connections that the I/O
thread has finished with. -/
namespace NovaCache.Server
open Protocol Interaction

instance (connection : Connection) : Decidable connection.Idle := inferInstanceAs (Decidable (_ ∧ _))

/-- The steps of the connection at a descriptor, with the position behind them. -/
inductive Deed (config : ServerConfig) (place : Position) (server : ServerState) (fd : Nat) (connection : Connection) :
    Position → List Event → Connection → Prop
  | change {events changed} (change : Change place.parsing connection events changed) :
      Deed config place server fd connection place events changed
  | receive (bytes : Bytes) (now : Int) (unread : place.unread = some fd) (active : connection.closing = false)
      (reading : connection.readClosed = false) (size : bytes.length ≤ 8192) :
      Deed config place server fd connection {place with parsing := some fd} [.received connection.id bytes]
        (connection.receive bytes now)
  | enqueue {request parser} (parsing : place.parsing = some fd) (active : connection.closing = false)
      (reading : connection.readClosed = false) (parsed : connection.parser.next = (.complete request,parser))
      (command : isCommandRequest request = true) :
      Deed config place server fd connection place [.parsed connection.id request] (connection.enqueue parser request)
  | launch {item rest} (queue : connection.commandQueue = item::rest) :
      Deed config place server fd connection
        {place with hand := .launching ⟨connection.id,item.sequence,item.request⟩, applying := none}
        [.launched connection.id item.sequence] (connection.launch rest)
  | strandEnd : Deed config place server fd connection {place with applying := none} [.strandEnded connection.id]
      {connection with strandRunning := false}
  | apply (completion : Completion) (now : Int) (own : connection.id = completion.connectionId)
      (due : completion ∈ server.draining) :
      Deed config place server fd connection {place with applying := some fd}
        ([.applied connection.id completion.sequence] ++ connection.overflow (connection.respond config completion now))
        (connection.respond config completion now)

variable {config : ServerConfig} {place later : Position} {server next : ServerState} {fd id : Nat}
  {current changed : Connection} {events trace : List Event} {held : List Job}

theorem applied_own (connection answered : Connection) (sequence : Nat) :
    ∀ event ∈ [.applied connection.id sequence] ++ connection.overflow answered,
      event.connection = some connection.id := by
  refine List.forall_mem_append.mpr ⟨List.forall_mem_singleton.mpr rfl,fun event member => ?_⟩
  rw [overflow_own _ _ event member]
  rfl

theorem Deed.own (deed : Deed config place server fd current later events changed) :
    changed.id = current.id ∧ ∀ event ∈ events, event.connection = some current.id := by
  cases deed with
  | change change => exact change.own
  | apply => exact ⟨respond_id _ _ _ _,applied_own _ _ _⟩
  | _ => exact ⟨rfl,List.forall_mem_singleton.mpr rfl⟩

/-- Events of a job, which its connection takes no notice of. -/
def Event.remote : Event → Bool
  | .submitted _ _ | .started _ _ | .executed _ _ _ _ => true
  | _ => false

/-- An event of a step that leaves the connection at a descriptor alone. A report on it is
attended to, and is a reason to read it if it says so. -/
def Beside (later : Position) (fd id : Nat) : Event → Prop
  | .reported event => event.fd = fd → fd ∈ later.attended ∧ (event.ready.read ∨ event.hangup → later.unread = some fd)
  | event => event.connection = some id → event.remote = true

theorem Beside.remote {event : Event} (beside : Beside later fd id event) (own : event.connection = some id) :
    event.remote = true := by
  cases event with
  | reported => cases own
  | _ => exact beside own

theorem beside_other {event : Event} (other : event.connection = some current.id) (different : current.id ≠ id) :
    Beside later fd id event := by
  cases event with
  | reported => cases other
  | _ => exact fun own => absurd (Option.some.inj (other.symm.trans own)) different

/-- How a connection has come out of a step: it was left alone, took the step, or is new. -/
def Fate (config : ServerConfig) (place : Position) (server : ServerState) (later : Position) (fd : Nat)
    (events : List Event) (changed : Connection) : Prop :=
  server.connections.lookup fd = some changed ∧ (∀ event ∈ events, Beside later fd changed.id event) ∨
    (∃ current, server.connections.lookup fd = some current ∧ fd ∈ place.attended ∧
      Deed config place server fd current later events changed) ∨
    ∃ now, changed = Connection.new config server.nextConnectionId now ∧
      events = [.accepted server.nextConnectionId fd] ∧ fd ∈ later.attended ∧ later.unread = some fd

theorem Deed.fate {other : Nat} {connection : Connection} (deed : Deed config place server other current later events connection)
    (valid : Valid config held server) (here : server.connections.lookup other = some current)
    (attended : other ∈ place.attended) (there : (server.connections.insert other connection).lookup fd = some changed) :
    Fate config place server later fd events changed := by
  rw [lookup_insert] at there
  split at there
  · next same =>
    cases there
    rw [same]
    exact Or.inr (Or.inl ⟨current,here,attended,deed⟩)
  · next different =>
    refine Or.inl ⟨there,fun event member => beside_other (deed.own.2 event member) fun same => different ?_⟩
    exact valid.unique _ _ _ _ there here same.symm

/-- What a step does to an open connection. -/
theorem Move.deed (move : Move config place server later next) (valid : Valid config held server)
    (found : next.connections.lookup fd = some changed) :
    ∃ events, next.trace = server.trace ++ events ∧ Fate config place server later fd events changed := by
  cases move with
  | take =>
    rw [take_connections] at found
    obtain ⟨events,grown,started⟩ := take_trace server
    refine ⟨events,grown,Or.inl ⟨found,fun event member => ?_⟩⟩
    obtain ⟨_,_,rfl⟩ := started event member
    exact fun _ => rfl
  | raise | blocked | full => exact ⟨_,rfl,Or.inl ⟨found,List.forall_mem_singleton.mpr fun mine => by cases mine⟩⟩
  | report event =>
    refine ⟨_,rfl,Or.inl ⟨found,List.forall_mem_singleton.mpr fun here => ⟨?_,fun readable => ?_⟩⟩⟩
    · exact here ▸ Set.mem_insert _ _
    · rw [← here]
      exact if_pos readable
  | finish | submit | start | complete =>
    exact ⟨_,rfl,Or.inl ⟨found,List.forall_mem_singleton.mpr fun _ => rfl⟩⟩
  | change here attended change => exact ⟨_,rfl,(Deed.change change).fate valid here attended found⟩
  | receive bytes now here attended _ unread active reading size =>
    exact ⟨_,rfl,(Deed.receive bytes now unread active reading size).fate valid here attended found⟩
  | enqueue here attended parsing active reading parsed command =>
    exact ⟨_,rfl,(Deed.enqueue parsing active reading parsed command).fate valid here attended found⟩
  | launch here attended _ _ queue => exact ⟨_,rfl,(Deed.launch queue).fate valid here attended found⟩
  | strandEnd here attended => exact ⟨_,rfl,Deed.strandEnd.fate valid here attended found⟩
  | apply now here attended _ _ own draining =>
    exact ⟨_,rfl,(Deed.apply _ now own (draining ▸ List.mem_cons_self)).fate valid here attended found⟩
  | accept now =>
    rw [lookup_insert] at found
    split at found
    · next same =>
      cases found
      rw [same]
      exact ⟨_,rfl,Or.inr (Or.inr ⟨now,rfl,rfl,Set.mem_insert _ _,rfl⟩)⟩
    · refine ⟨_,rfl,Or.inl ⟨found,List.forall_mem_singleton.mpr fun mine => ?_⟩⟩
      exact absurd (Option.some.inj mine) (Nat.ne_of_gt (valid.below _ _ found))
  | @close other connection here =>
    obtain ⟨different,found⟩ := lookup_erase_some found
    refine ⟨_,rfl,Or.inl ⟨found,List.forall_mem_singleton.mpr (beside_other rfl fun equal => different ?_)⟩⟩
    exact valid.unique _ _ _ _ found here equal.symm
  | stop | parsed | approach | read | discard | drain | widen | release =>
    exact ⟨[],(List.append_nil _).symm,Or.inl ⟨found,List.forall_mem_nil _⟩⟩

/-- The I/O thread lets go of the descriptor of a connection only when it has finished with it. -/
theorem Move.attended (move : Move config place server later next) :
    (∀ fd ∈ place.attended, fd ≠ config.listener → fd ∈ later.attended) ∨
    ∃ fd, next = server ∧ place.unread = none ∧ later.attended = place.attended \ {fd} ∧
      ∀ connection, server.connections.lookup fd = some connection →
        Finished config connection server.trace ∧ Awaiting connection server.trace := by
  cases move with
  | blocked | full => exact Or.inl fun fd inside other => ⟨inside,other⟩
  | report | accept => exact Or.inl fun fd inside _ => Set.mem_insert_of_mem _ inside
  | widen more => exact Or.inl fun fd inside _ => more inside
  | release fd settled finished _ => exact Or.inr ⟨fd,rfl,settled,rfl,finished⟩
  | _ => exact Or.inl fun fd inside _ => inside

/-- What a new connection meets, its own steps keep and a longer trace does not take away, holds
of every connection. -/
theorem Reached.each (invariant : Connection → List Event → Prop)
    (fresh : ∀ id now trace, invariant (Connection.new config id now) trace)
    (stays : ∀ connection trace events, invariant connection trace → invariant connection (trace ++ events))
    (deeds : ∀ place server fd current later events changed,
      Deed config place server fd current later events changed → invariant current server.trace →
        invariant changed (server.trace ++ events)) (reached : Reached config place server) :
    ∀ fd connection, server.connections.lookup fd = some connection → invariant connection server.trace := by
  induction reached with
  | start => exact fun fd connection found => (initial_empty found).elim
  | next before move ih =>
    intro fd changed found
    obtain ⟨events,grown,cases⟩ := move.deed before.valid found
    rw [grown]
    rcases cases with ⟨same,_⟩ | ⟨current,old,_,deed⟩ | ⟨now,rfl,_⟩
    · exact stays changed _ events (ih fd changed same)
    · exact deeds _ _ fd current _ events changed deed (ih fd current old)
    · exact fresh _ now _

/-- What holds of a connection when the I/O thread lets go of it, and what others do does not
take away, holds of every connection that is not attended to. -/
theorem Reached.unattended (invariant : Nat → Connection → List Event → Prop)
    (released : ∀ place server fd connection, Reached config place server → place.unread = none →
      server.connections.lookup fd = some connection → Finished config connection server.trace →
      Awaiting connection server.trace → invariant fd connection server.trace)
    (beside : ∀ later fd connection trace events, fd ∉ later.attended →
      (∀ event ∈ events, Beside later fd connection.id event) → invariant fd connection trace →
        invariant fd connection (trace ++ events)) (reached : Reached config place server) :
    ∀ fd connection, fd ∉ place.attended → server.connections.lookup fd = some connection →
      invariant fd connection server.trace := by
  induction reached with
  | start => exact fun fd connection _ found => (initial_empty found).elim
  | @next place server later next before move ih =>
    intro fd changed outside found
    rcases move.attended with wider | ⟨other,rfl,settled,narrower,finished⟩
    · have other : fd ≠ config.listener := (before.next move).not_listener found
      obtain ⟨events,grown,cases⟩ := move.deed before.valid found
      rw [grown]
      rcases cases with ⟨same,apart⟩ | ⟨current,_,attended,_⟩ | ⟨now,_,_,attended,_⟩
      · refine beside later fd changed _ events outside apart (ih fd changed (fun inside => ?_) same)
        exact outside (wider fd inside other)
      · exact absurd (wider fd attended other) outside
      · exact absurd attended outside
    · by_cases here : fd = other
      · obtain ⟨done,awaiting⟩ := finished changed (here ▸ found)
        exact released place next fd changed before settled found done awaiting
      · refine ih fd changed (fun inside => outside ?_) found
        rw [narrower]
        exact ⟨inside,here⟩

/-- Every connection that is not attended to has been finished with. -/
theorem Reached.finished (reached : Reached config place server) : ∀ fd connection, fd ∉ place.attended →
    server.connections.lookup fd = some connection → Finished config connection server.trace := by
  apply reached.unattended fun _ connection trace => Finished config connection trace
  · intro _ _ _ _ _ _ _ done _
    exact done
  · intro _ _ _ _ _ _ _ done
    exact done.stays _

/-- Something on the connection itself that makes it close. -/
def OwnFault (id : Nat) (trace : List Event) : Prop :=
  .endOfStream id ∈ trace ∨ .protocolError id ∈ trace ∨ .overflowed id ∈ trace ∨ .sendClosed id ∈ trace

theorem OwnFault.stays (fault : OwnFault id trace) (grown : trace ⊆ events) : OwnFault id events :=
  fault.imp (fun member => grown member) (Or.imp (fun member => grown member)
    (Or.imp (fun member => grown member) fun member => grown member))

theorem Change.fault {parsing : Option Nat} (change : Change parsing current events changed)
    (fault : current.closing = true → OwnFault current.id trace) (closing : changed.closing = true) :
    OwnFault changed.id (trace ++ events) := by
  have stays := fun closed => (fault closed).stays (List.subset_append_left trace events)
  cases change with
  | register | note | block | send | endBusy => exact stays closing
  | breaks => exact Or.inr (Or.inr (Or.inr (List.mem_append_right _ List.mem_cons_self)))
  | refuse | endInside => exact Or.inr (Or.inl (List.mem_append_right _ (by simp [Connection.fail])))
  | endIdle => exact Or.inl (List.mem_append_right _ (by simp))

theorem Deed.fault (deed : Deed config place server fd current later events changed)
    (fault : current.closing = true → OwnFault current.id trace) (closing : changed.closing = true) :
    OwnFault changed.id (trace ++ events) := by
  have stays := fun closed => (fault closed).stays (List.subset_append_left trace events)
  cases deed with
  | change change => exact change.fault fault closing
  | apply completion now =>
    rw [respond_id]
    cases before : current.closing with
    | true => exact stays before
    | false =>
      refine Or.inr (Or.inr (Or.inl (List.mem_append_right _ (List.mem_append_right _ ?_))))
      rw [Connection.overflow,closing,before]
      exact List.mem_cons_self
  | _ => exact stays closing

/-- A connection closes by its own fault. -/
theorem Reached.fault (reached : Reached config place server) : ∀ fd connection,
    server.connections.lookup fd = some connection → connection.closing = true → OwnFault connection.id server.trace := by
  apply reached.each fun connection trace => connection.closing = true → OwnFault connection.id trace
  · exact fun _ _ _ => nofun
  · exact fun _ _ _ fault closing => (fault closing).stays (List.subset_append_left _ _)
  · exact fun _ _ _ _ _ _ _ deed => deed.fault

/-- An open connection stays the same one, and what it has ended stays ended. -/
structure Remains (connection later : Connection) : Prop where
  same : later.id = connection.id
  ended : connection.readClosed = true → later.readClosed = true

theorem Change.remains {parsing : Option Nat} (change : Change parsing current events changed) : Remains current changed := by
  refine ⟨change.own.1,fun ended => ?_⟩
  cases change with
  | register | note | block | send | breaks => exact ended
  | refuse | endInside | endIdle | endBusy => rfl

theorem respond_remains (config : ServerConfig) (completion : Completion) (now : Int) (connection : Connection) :
    Remains connection (connection.respond config completion now) := by
  refine ⟨respond_id config completion now connection,fun ended => ?_⟩
  rcases (respond_flushed config completion now connection).closes with kept | closed
  · exact kept.2.trans ended
  · exact closed.2

/-- An open connection stays open unless it is closed. -/
theorem Move.remains (move : Move config place server later next)
    (found : server.connections.lookup fd = some current) :
    (∃ connection, next.connections.lookup fd = some connection ∧ Remains current connection) ∨
      Closable config server fd current ∧ place.parsing = none ∧ next.connections = server.connections.erase fd ∧
        next.trace = server.trace ++ [.closed current.id] := by
  have put : ∀ {other old connection}, server.connections.lookup other = some old → Remains old connection →
      ∃ kept, (server.connections.insert other connection).lookup fd = some kept ∧ Remains current kept := by
    intro other old connection lookup same
    rw [lookup_insert]
    split
    · next here =>
      subst here
      cases lookup.symm.trans found
      exact ⟨connection,rfl,same⟩
    · exact ⟨current,found,rfl,id⟩
  cases move with
  | take => exact Or.inl ⟨current,(take_connections server).symm ▸ found,rfl,id⟩
  | change lookup _ change => exact Or.inl (put lookup change.remains)
  | receive _ _ lookup | enqueue lookup | launch lookup | strandEnd lookup => exact Or.inl (put lookup ⟨rfl,id⟩)
  | @apply other old completion _ now lookup => exact Or.inl (put lookup (respond_remains config completion now old))
  | @accept other now _ unused =>
    refine Or.inl ⟨current,?_,rfl,id⟩
    rw [AList.lookup_insert_ne,found]
    rintro rfl
    cases unused.symm.trans found
  | @close other connection lookup _ parsed closable =>
    by_cases here : fd = other
    · subst here
      cases lookup.symm.trans found
      exact Or.inr ⟨closable,parsed,rfl,rfl⟩
    · exact Or.inl ⟨current,(AList.lookup_erase_ne here).trans found,rfl,id⟩
  | _ => exact Or.inl ⟨current,found,rfl,id⟩

/-- Events that change nothing leave what was gathered from a trace. -/
theorem foldl_calm {Gathered : Type} {step : Gathered → Event → Gathered} {events : List Event}
    (calm : ∀ event ∈ events, ∀ before, step before event = before) (before : Gathered) :
    events.foldl step before = before := by
  induction events with
  | nil => rfl
  | cons event events ih =>
    obtain ⟨head,tail⟩ := List.forall_mem_cons.mp calm
    rw [List.foldl_cons,head]
    exact ih tail

/-- Bytes are received or a command is parsed from them. -/
def Event.inbound : Event → Bool
  | .received _ _ | .parsed _ _ => true
  | _ => false

theorem Wire.step_outbound {event : Event} (outbound : event.inbound = false) (wire : Wire) :
    (wire.step event).received = wire.received ∧ (wire.step event).commands = wire.commands := by
  cases event with
  | received | parsed => cases outbound
  | _ => exact ⟨rfl,rfl⟩

theorem wire_outbound (outbound : ∀ event ∈ events, event.connection = some id → event.inbound = false) (trace : List Event) :
    (wire id (trace ++ events)).received = (wire id trace).received ∧
      (wire id (trace ++ events)).commands = (wire id trace).commands := by
  induction events using List.reverseRecOn with
  | nil =>
    rw [List.append_nil]
    exact ⟨rfl,rfl⟩
  | append_singleton events event ih =>
    obtain ⟨before,last⟩ := List.forall_mem_append.mp outbound
    obtain ⟨received,commands⟩ := ih before
    by_cases own : event.connection = some id
    · have stepped := Wire.step_outbound (last event List.mem_cons_self own) (wire id (trace ++ events))
      rw [← List.append_assoc,wire_own (List.forall_mem_singleton.mpr own)]
      exact ⟨stepped.1.trans received,stepped.2.trans commands⟩
    · rw [← List.append_assoc,wire_other (List.forall_mem_singleton.mpr own)]
      exact ⟨received,commands⟩

/-- A connection that reads no more, or is gone, receives nothing and parses nothing. -/
theorem Move.received (move : Move config place server later next)
    (ended : ∀ fd connection, server.connections.lookup fd = some connection → connection.id = id →
      connection.readClosed = true) :
    (wire id next.trace).received = (wire id server.trace).received ∧
      (wire id next.trace).commands = (wire id server.trace).commands := by
  have other : ∀ {fd connection}, server.connections.lookup fd = some connection → connection.readClosed = false →
      connection.id ≠ id := fun found reading own => by
    cases (ended _ _ found own).symm.trans reading
  cases move with
  | take =>
    obtain ⟨events,grown,started⟩ := take_trace server
    rw [grown]
    refine wire_outbound (fun event member _ => ?_) _
    obtain ⟨_,_,rfl⟩ := started event member
    rfl
  | change _ _ change =>
    refine wire_outbound (fun event member _ => ?_) _
    revert event
    cases change <;> simp [Event.inbound]
  | receive _ _ found _ _ _ _ reading | enqueue found _ _ _ reading =>
    refine wire_outbound (List.forall_mem_singleton.mpr fun own => ?_) _
    exact absurd (Option.some.inj own) (other found reading)
  | apply =>
    refine wire_outbound (List.forall_mem_append.mpr ⟨List.forall_mem_singleton.mpr fun _ => rfl,fun event member _ => ?_⟩) _
    rw [overflow_own _ _ event member]
    rfl
  | stop | parsed | approach | read | discard | drain | widen | release => exact ⟨rfl,rfl⟩
  | _ => exact wire_outbound (List.forall_mem_singleton.mpr fun _ => rfl) _

theorem Move.identifiers (move : Move config place server later next) : server.nextConnectionId ≤ next.nextConnectionId := by
  cases move with
  | take => exact le_of_eq (take_count server).symm
  | accept => exact Nat.le_succ _
  | _ => exact le_refl _

/-- No identifier that was given out comes back. -/
theorem Move.gone (move : Move config place server later next) (valid : Valid config held server)
    (known : id < server.nextConnectionId)
    (gone : ∀ fd connection, server.connections.lookup fd = some connection → connection.id ≠ id) :
    ∀ fd connection, next.connections.lookup fd = some connection → connection.id ≠ id := by
  intro fd changed found
  obtain ⟨events,_,cases⟩ := move.deed valid found
  rcases cases with ⟨same,_⟩ | ⟨current,old,_,deed⟩ | ⟨now,rfl,_⟩
  · exact gone fd changed same
  · rw [deed.own.1]
    exact gone fd current old
  · exact Nat.ne_of_gt known

/-- A connection whose peer has ended its stream is open and reads no more, or has been closed. -/
theorem Reached.halfClosed (reached : Reached config place server) (ended : .endOfStream id ∈ server.trace) :
    id < server.nextConnectionId ∧
      ((∃ fd connection, server.connections.lookup fd = some connection ∧ connection.id = id ∧
          connection.readClosed = true) ∨
        .closed id ∈ server.trace ∧ ∀ fd connection, server.connections.lookup fd = some connection → connection.id ≠ id) := by
  induction reached with
  | start => cases ended
  | @next place server later next before move ih =>
    obtain ⟨events,grown,occurs⟩ := move.trace
    rw [grown] at ended ⊢
    rcases List.mem_append.mp ended with old | new
    · obtain ⟨known,still⟩ := ih old
      refine ⟨lt_of_lt_of_le known move.identifiers,?_⟩
      rcases still with ⟨fd,connection,found,rfl,closed⟩ | ⟨closed,gone⟩
      · rcases move.remains found with ⟨kept,lookup,remains⟩ | ⟨_,_,erased,last⟩
        · exact Or.inl ⟨fd,kept,lookup,remains.same,remains.ended closed⟩
        · refine Or.inr ⟨?_,fun other open_ lookup own => ?_⟩
          · rw [← grown,last]
            exact List.mem_append_right _ List.mem_cons_self
          · rw [erased] at lookup
            obtain ⟨different,lookup⟩ := lookup_erase_some lookup
            exact different (before.valid.unique _ _ _ _ lookup found own)
      · exact Or.inr ⟨List.mem_append_left _ closed,move.gone before.valid known gone⟩
    · obtain ⟨fd,connection,found,rfl,closed⟩ := occurs _ new
      exact ⟨(before.next move).valid.below fd connection found,Or.inl ⟨fd,connection,found,rfl,closed⟩⟩

/-- Each event passes a check that knows the events before it. -/
def passes (check : List Event → Event → Bool) : List Event → List Event → Bool
  | _, [] => true
  | front, event::rest => check front event && passes check (front ++ [event]) rest

theorem passes_append (check : List Event → Event → Bool) (front trace events : List Event) :
    passes check front (trace ++ events) = (passes check front trace && passes check (front ++ trace) events) := by
  induction trace generalizing front with
  | nil => rw [List.append_nil]; rfl
  | cons event trace ih =>
    rw [List.cons_append,passes,passes,ih,Bool.and_assoc,List.append_assoc]
    rfl

theorem passes_at {check : List Event → Event → Bool} {front back : List Event} {event : Event}
    (passed : passes check [] (front ++ event::back) = true) : check front event = true := by
  rw [passes_append,List.nil_append,passes] at passed
  exact (Bool.and_eq_true_iff.mp (Bool.and_eq_true_iff.mp passed).2).1

/-! For runs on fixed inputs: a server that listens on descriptor 3 accepts a connection. -/

def listening (workerQueueLimit : Nat) : ServerConfig := ⟨1,10,workerQueueLimit,1000,0,.default,3⟩

def accepting (fd : Nat) : List Input :=
  [.others [],.ready [⟨3,⟨true,false⟩,false,false⟩],.others [],.others [],.others [],.accepted fd,.succeeded,.clock 0,
    .succeeded]

/-- The request `PING`. -/
def ping : Bytes := [0x2A,0x31,0x0D,0x0A,0x24,0x34,0x0D,0x0A,0x50,0x49,0x4E,0x47,0x0D,0x0A]

def pong : RespValue := .simple [0x50,0x4F,0x4E,0x47]

/-- A worker answers `PING`, and the reply is sent. -/
def answering : List Input :=
  accepting 7 ++ [.others [],.received ping,.clock 0,.others [],.others [],.others [],.others [.take,.finish 0 pong],
    .blocked,.others [],.clock 0,.sent 7,.clock 0,.others [],.others [],.others [],.others [],.blocked,.others []]

/-- `PING` fills the worker queue: parsing stops, and reading waits until the reply is sent. -/
def saturating : List Input :=
  accepting 7 ++ [.others [],.received ping,.clock 0,.others [],.others [],.others [],.others [],.others [],.others [],
    .succeeded,.others [],.blocked,.others [.take,.finish 0 pong],.clock 0,.sent 7,.clock 0,.others [],.succeeded,
    .others []]

def Event.saturates : Event → Bool
  | .met .parsingStopped _ => true
  | _ => false

/-- The connection at a descriptor is reported as readable. -/
def reporting (fd : Nat) : List Input :=
  [.others [],.ready [⟨fd,⟨true,false⟩,false,false⟩],.others [],.others [],.others []]

/-- The rounds are iterations of `run`, and behind them a connection passes a check. -/
def observe (config : ServerConfig) (rounds : List (List Input)) (fd : Nat) (check : ServerState → Connection → Bool) : Bool :=
  match iterations config rounds with
  | none => false
  | some server =>
    match server.connections.lookup fd with
    | none => false
    | some connection => check server connection

theorem observe_true {rounds : List (List Input)} {check : ServerState → Connection → Bool}
    (passed : observe config rounds fd check = true) : ∃ server connection, iterations config rounds = some server ∧
      server.connections.lookup fd = some connection ∧ check server connection = true := by
  unfold observe at passed
  split at passed
  · cases passed
  · next server ran =>
    split at passed
    · cases passed
    · next connection found => exact ⟨server,connection,ran,found,passed⟩

end NovaCache.Server
