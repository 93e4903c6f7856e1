import NovaCache.Server.Wakeups

/-! What one connection can do to the others. A connection is removed only for a reason of
its own, whatever happens on the others, and the I/O thread goes on as long as no call fails. -/
namespace NovaCache.Server
open Protocol Interaction

/-- Why a connection is closed behind these events: an error reported on its descriptor, nothing
left to do after a fault of its own, a timeout that it has reached, or the end of the server. -/
def Reason (config : ServerConfig) (server : ServerState) (fd id : Nat) (front : List Event) : Event → Prop
  | .reported event => event.fd = fd ∧ event.error = true
  | .met .finished found => found.id = id ∧ found.closing = true ∧ found.Idle ∧ OwnFault id front
  | .met (.idle now) found => found.id = id ∧ 0 < config.idleTimeout ∧
      found.lastActivity < now - config.idleTimeout * 1000000000 ∧ found.inflight = 0
  | .met .shutdown found => found.id = id ∧ server.stopping = true
  | _ => False

/-- A connection that was accepted was closed right behind a reason of its own. -/
def OwnEnd (config : ServerConfig) (server : ServerState) (fd id : Nat) : Prop :=
  ∃ front event back, server.trace = front ++ event::.closed id::back ∧ Reason config server fd id front event

/-- The requests, replies and output of an open connection. -/
structure Accounted (server : ServerState) (connection : Connection) : Prop where
  requests : connection.nextRequestSeq = (wire connection.id server.trace).commands.length
  queued : ∀ item ∈ connection.commandQueue,
    (wire connection.id server.trace).commands[item.sequence]? = some item.request
  inflight : ∃ moved, strand connection.id server.trace = some moved ∧
    connection.inflight = connection.commandQueue.length + moved.waiting
  pending : ∀ sequence payload, connection.pendingResponses.lookup sequence = some payload →
    Answered (wire connection.id server.trace) sequence payload
  output : ∃ payloads frames, Sending (wire connection.id server.trace) connection payloads frames

variable {config : ServerConfig} {place later : Position} {server next : ServerState} {fd id : Nat}
  {current changed : Connection} {events trace : List Event}

theorem Reached.accounted (reached : Reached config place server)
    (found : server.connections.lookup fd = some current) : Accounted server current := by
  have consistent := reached.valid.consistent fd current found
  obtain ⟨moved,follows⟩ := reached.ordered.strands current.id
  exact ⟨consistent.requests,consistent.queued,⟨moved,follows.legal,(follows.opened found).inflight⟩,
    consistent.pending,consistent.sending⟩

theorem Reason.stays {front : List Event} {event : Event} (reason : Reason config server fd id front event)
    (stops : server.stopping = true → next.stopping = true) : Reason config next fd id front event := by
  unfold Reason at reason ⊢
  split at reason
  · exact reason
  · exact reason
  · exact reason
  · exact ⟨reason.1,stops reason.2⟩
  · exact reason.elim

theorem OwnFault.before {found : Connection} {front : List Event} (fault : OwnFault id (front ++ [.met .finished found])) :
    OwnFault id front := by
  simpa [OwnFault] using fault

/-- A connection is closed for the reason that was met last. -/
theorem Reached.closes (reached : Reached config place server) (found : server.connections.lookup fd = some current)
    (closable : Closable config server fd current) :
    ∃ front event, server.trace = front ++ [event] ∧ Reason config server fd current.id front event := by
  cases closable with
  | finished noticed closing idle =>
    obtain ⟨front,split⟩ := List.getLast?_eq_some_iff.mp noticed
    have fault := reached.fault fd current found closing
    rw [split] at fault
    exact ⟨front,_,split,rfl,closing,idle,fault.before⟩
  | faulty event reported here error =>
    obtain ⟨front,split⟩ := List.getLast?_eq_some_iff.mp reported
    exact ⟨front,_,split,here,error⟩
  | inactive now noticed enabled silent waiting =>
    obtain ⟨front,split⟩ := List.getLast?_eq_some_iff.mp noticed
    exact ⟨front,_,split,rfl,enabled,silent,waiting⟩
  | stopped noticed stopping =>
    obtain ⟨front,split⟩ := List.getLast?_eq_some_iff.mp noticed
    exact ⟨front,_,split,rfl,stopping⟩

theorem OwnEnd.stays (ended : OwnEnd config server fd id) (grown : next.trace = server.trace ++ events)
    (stops : server.stopping = true → next.stopping = true) : OwnEnd config next fd id := by
  obtain ⟨front,event,back,split,reason⟩ := ended
  refine ⟨front,event,back ++ events,?_,reason.stays stops⟩
  rw [grown,split,List.append_assoc]
  rfl

theorem Reached.removed (reached : Reached config place server) (found : server.connections.lookup fd = some current)
    (closable : Closable config server fd current) (grown : next.trace = server.trace ++ [.closed current.id])
    (stops : server.stopping = true → next.stopping = true) : OwnEnd config next fd current.id := by
  obtain ⟨front,event,split,reason⟩ := reached.closes found closable
  refine ⟨front,event,[],?_,reason.stays stops⟩
  rw [grown,split,List.append_assoc]
  rfl

/-- Every connection that was accepted is open or has come to an end of its own. -/
theorem Reached.isolated (reached : Reached config place server) : ∀ id fd, .accepted id fd ∈ server.trace →
    (∃ connection, server.connections.lookup fd = some connection ∧ connection.id = id) ∨ OwnEnd config server fd id := by
  induction reached with
  | start => exact nofun
  | @next place server later next before move ih =>
    intro id fd accepted
    obtain ⟨events,grown,occurs⟩ := move.trace
    rw [grown] at accepted
    rcases List.mem_append.mp accepted with old | new
    · rcases ih id fd old with ⟨current,found,rfl⟩ | ended
      · rcases move.remains found with ⟨kept,lookup,remains⟩ | ⟨closable,_,_,closed⟩
        · exact Or.inl ⟨kept,lookup,remains.same⟩
        · exact Or.inr (before.removed found closable closed move.stopping)
      · exact Or.inr (ended.stays grown move.stopping)
    · exact Or.inl (occurs _ new)

/-- The loop goes on until it is stopped if no input is faulty. -/
theorem run_calm {inputs : List Input} (calm : ∀ input ∈ inputs, input.faulty = false) :
    match ((run config).run (ServerState.initial config) inputs).1 with
    | .paused => True
    | .done _ _ => (stateAfter config inputs).stopping = true
    | .raised | .undefined => False := by
  have result := @run_keeps config (fun input => input.faulty = false) (ServerState.initial config) inputs calm
    (at_initial config)
  unfold stateAfter
  rcases ran : (run config).run (ServerState.initial config) inputs with ⟨_ | _ | _ | _,reached⟩ <;> rw [ran] at result
  · exact result.2
  · trivial
  · obtain ⟨_,input,fine,faulty⟩ := result
    cases fine.symm.trans faulty
  · exact result.elim

/-- At every moment of every run, every open connection has its requests, replies and output
accounted for, and every connection that was accepted is open or was closed right behind a reason
of its own; and the loop goes on until it is stopped, if no call fails and no command throws. -/
theorem connections_isolated (config : ServerConfig) (inputs : List Input) :
    (∀ fd connection, (stateAfter config inputs).connections.lookup fd = some connection →
      Accounted (stateAfter config inputs) connection) ∧
    (∀ id fd, .accepted id fd ∈ (stateAfter config inputs).trace →
      (∃ connection, (stateAfter config inputs).connections.lookup fd = some connection ∧ connection.id = id) ∨
        OwnEnd config (stateAfter config inputs) fd id) ∧
    ((∀ input ∈ inputs, input.faulty = false) →
      match ((run config).run (ServerState.initial config) inputs).1 with
      | .paused => True
      | .done _ _ => (stateAfter config inputs).stopping = true
      | .raised | .undefined => False) := by
  obtain ⟨place,reached⟩ := run_moment config inputs
  exact ⟨fun fd connection found => reached.accounted found,reached.isolated,run_calm⟩

/-- A connection is open next to one whose peer has ended it. -/
def leaving : List Input :=
  answering ++ [.others [],.ready [⟨3,⟨true,false⟩,false,false⟩],.others [],.others [],.others [],.accepted 8,.succeeded,
    .clock 0,.succeeded,.others [],.closed,.others [],.others []]

def Event.closes (id : Nat) : Event → Bool
  | .closed other => decide (other = id)
  | _ => false

theorem connections_isolated_leaving :
    (stateAfter (listening 2) leaving).trace.any (Event.closes 2) = true ∧
    (∃ connection, (stateAfter (listening 2) leaving).connections.lookup 7 = some connection ∧
      Accounted (stateAfter (listening 2) leaving) connection) ∧
    match ((run (listening 2)).run (ServerState.initial (listening 2)) leaving).1 with
    | .paused => True
    | .done _ _ => (stateAfter (listening 2) leaving).stopping = true
    | .raised | .undefined => False := by
  have isolated := connections_isolated (listening 2) leaving
  have stays : ((stateAfter (listening 2) leaving).connections.lookup 7).isSome = true := by decide +kernel
  obtain ⟨connection,found⟩ := Option.isSome_iff_exists.mp stays
  exact ⟨by decide +kernel,⟨connection,found,isolated.1 7 connection found⟩,isolated.2.2 (by decide)⟩

/-- The server when an exception leaves `run`. -/
def raisedState (config : ServerConfig) (inputs : List Input) : Option ServerState :=
  match (run config).run (ServerState.initial config) inputs with
  | (.raised,server) => some server
  | _ => none

/-- A connection has had its reply, and reading a second one fails. -/
def resetting : List Input :=
  answering ++ [.others [],.ready [⟨3,⟨true,false⟩,false,false⟩],.others [],.others [],.others [],.accepted 8,.succeeded,
    .clock 0,.succeeded,.others [],.failed]

/-- Descriptor 7 is open without anything to do, and the last event is the exception of descriptor 8. -/
def resetSeen (server : ServerState) : Bool :=
  match server.connections.lookup 7,server.connections.lookup 8,server.trace.getLast? with
  | some healthy,some failing,some (.raised (.receive id)) =>
    decide (healthy.closing = false ∧ healthy.Idle ∧ id = failing.id)
  | _,_,_ => false

/-- The exception of `try_receive` on one connection leaves `run` while the other is open,
without anything to do and without a fault. -/
theorem reset_leaves_run : ∃ server healthy failing, raisedState (listening 2) resetting = some server ∧
    server.connections.lookup 7 = some healthy ∧ healthy.closing = false ∧ healthy.Idle ∧
    server.connections.lookup 8 = some failing ∧ server.trace.getLast? = some (.raised (.receive failing.id)) := by
  have seen : (raisedState (listening 2) resetting).any resetSeen = true := by decide +kernel
  obtain ⟨server,ran,passed⟩ := (Option.any_eq_true _ _).mp seen
  unfold resetSeen at passed
  split at passed
  · next healthy failing id here there last =>
    obtain ⟨active,idle,own⟩ := of_decide_eq_true passed
    rw [own] at last
    exact ⟨server,healthy,failing,ran,here,active,idle,there,last⟩
  · cases passed

end NovaCache.Server
