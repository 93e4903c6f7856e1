import NovaCache.Server.Connections

/-! Connections whose peer has closed its sending side. One that has nothing left to do when
the end of the stream is read is marked as closing, and a closing connection is removed. -/
namespace NovaCache.Server
open Protocol Interaction

def streamEnded (id : Nat) (trace : List Event) : Bool := trace.any fun
  | .endOfStream other => decide (other = id)
  | _ => false

/-- The end of the stream is met outside a frame only by a connection with nothing left to
do, and not by the read that follows the registration of interest. -/
def timelyEnd (id : Nat) (front : List Event) : Event → Bool
  | .met .endOfStream found => decide (found.id = id → found.parser.buffer = [] → found.Idle)
  | .met .readAgain found => decide (found.id = id → streamEnded id front = false)
  | _ => true

/-- The end of the stream came while the connection had something to do. -/
def BusyEnd (id : Nat) (trace : List Event) : Prop :=
  ∃ found, .met .endOfStream found ∈ trace ∧ found.id = id ∧ found.parser.buffer = [] ∧ ¬ found.Idle

def Ended (connection : Connection) (trace : List Event) : Prop :=
  connection.readClosed = true → connection.closing = true ∨ BusyEnd connection.id trace

variable {config : ServerConfig} {place later : Position} {server next : ServerState} {fd id : Nat}
  {current changed : Connection} {events trace : List Event}

theorem streamEnded_iff : streamEnded id trace = true ↔ .endOfStream id ∈ trace := by
  refine List.any_eq_true.trans ⟨?_,fun member => ⟨_,member,decide_eq_true rfl⟩⟩
  rintro ⟨event,member,here⟩
  cases event with
  | endOfStream other => exact of_decide_eq_true here ▸ member
  | _ => cases here

theorem BusyEnd.stays (busy : BusyEnd id trace) (grown : trace ⊆ events) : BusyEnd id events := by
  obtain ⟨found,member,facts⟩ := busy
  exact ⟨found,grown member,facts⟩

theorem Ended.stays (ended : Ended current trace) (grown : trace ⊆ events) : Ended current events :=
  fun closed => (ended closed).imp_right fun busy => busy.stays grown

theorem Change.ended {parsing : Option Nat} (change : Change parsing current events changed) (ended : Ended current trace) :
    Ended changed (trace ++ events) := by
  have stays := ended.stays (List.subset_append_left trace events)
  intro closed
  cases change with
  | register | note | block | send => exact stays closed
  | breaks | refuse | endInside | endIdle => exact Or.inl rfl
  | endBusy _ _ outside busy =>
    exact Or.inr ⟨current,List.mem_append_right _ List.mem_cons_self,rfl,outside,busy⟩

theorem Deed.ended (deed : Deed config place server fd current later events changed) (ended : Ended current trace) :
    Ended changed (trace ++ events) := by
  have stays := ended.stays (List.subset_append_left trace events)
  cases deed with
  | change change => exact change.ended ended
  | apply completion now =>
    have flushed := respond_flushed config completion now current
    intro closed
    rcases flushed.closes with ⟨closing,same⟩ | ⟨closing,_⟩
    · rw [respond_id,closing]
      exact stays (same.symm.trans closed)
    · exact Or.inl closing
  | _ => exact stays

/-- A connection that reads no more is closing, or met the end of the stream too early. -/
theorem Reached.ended (reached : Reached config place server) :
    ∀ fd connection, server.connections.lookup fd = some connection → Ended connection server.trace := by
  apply reached.each Ended
  · exact fun _ _ _ => nofun
  · exact fun _ _ _ ended => ended.stays (List.subset_append_left _ _)
  · exact fun _ _ _ _ _ _ _ deed => deed.ended

/-- A connection that reads no more still has something to do, if it met the end of its stream in
time. -/
theorem At.pending {batch : List Completion} {shape : Connections → Prop} (at_ : At config (.resting ∅) batch shape server)
    (found : server.connections.lookup fd = some current) (timely : passes (timelyEnd current.id) [] server.trace = true)
    (closed : current.readClosed = true) : ¬ current.Idle := by
  intro idle
  rcases at_.reached.ended fd current found closed with closing | ⟨met,member,own,outside,busy⟩
  · obtain ⟨front,again,back,split,own,ended⟩ :=
      (at_.reached.finished fd current (Set.notMem_empty _) found).closed closing idle
    rw [split] at timely
    have early := of_decide_eq_true (passes_at timely) own
    cases (streamEnded_iff.mpr ended).symm.trans early
  · obtain ⟨front,back,split⟩ := List.append_of_mem member
    rw [split] at timely
    exact busy (of_decide_eq_true (passes_at timely) own outside)

/-- Between any two iterations of `run`: if a connection met the end of its stream in time, it
still has commands in flight or output when it reads no more, and it has been removed when its
peer has closed its side and it has neither. -/
theorem half_closed_removed (config : ServerConfig) (rounds : List (List Input)) (server : ServerState)
    (ran : iterations config rounds = some server) (id : Nat)
    (timely : passes (timelyEnd id) [] server.trace = true) :
    (∀ fd connection, server.connections.lookup fd = some connection → connection.id = id →
      ¬ (connection.readClosed = true ∧ connection.inflight = 0 ∧ connection.output = [])) ∧
    (.endOfStream id ∈ server.trace →
      (∃ fd connection, server.connections.lookup fd = some connection ∧ connection.id = id ∧
        (connection.inflight ≠ 0 ∨ connection.output ≠ [])) ∨
      .closed id ∈ server.trace ∧
        ∀ fd connection, server.connections.lookup fd = some connection → connection.id ≠ id) := by
  have at_ := iterations_at ran
  constructor
  · rintro fd connection found rfl ⟨closed,none,sent⟩
    exact at_.pending found timely closed ⟨sent,none⟩
  · intro ended
    refine (at_.reached.halfClosed ended).2.imp_left ?_
    rintro ⟨fd,connection,found,rfl,closed⟩
    have pending := at_.pending found timely closed
    rw [Connection.Idle,not_and_or] at pending
    exact ⟨fd,connection,found,rfl,pending.symm⟩

/-- The peer has its reply and closes its side. -/
def closingAnswered : List (List Input) := [answering,reporting 7 ++ [.closed,.others [],.others []]]

/-- The peer closes its side inside a frame, and the error frame waits to be sent. -/
def closingInside : List (List Input) :=
  [accepting 7 ++ [.others [],.received [0x2A],.clock 0,.others [],.others [],.closed,.others [],.succeeded,.others [],
    .blocked,.others []]]

theorem half_closed_removed_answered :
    (∃ server, iterations (listening 2) closingAnswered = some server ∧ .endOfStream 1 ∈ server.trace ∧
      .closed 1 ∈ server.trace) ∧
    ∃ server connection, iterations (listening 2) closingInside = some server ∧
      server.connections.lookup 7 = some connection ∧ connection.readClosed = true ∧
      ¬ (connection.readClosed = true ∧ connection.inflight = 0 ∧ connection.output = []) := by
  constructor
  · have checked : (iterations (listening 2) closingAnswered).any (fun server => passes (timelyEnd 1) [] server.trace &&
        streamEnded 1 server.trace && server.connections.entries.isEmpty) = true := by decide +kernel
    obtain ⟨server,ran,passed⟩ := (Option.any_eq_true _ _).mp checked
    obtain ⟨both,empty⟩ := Bool.and_eq_true_iff.mp passed
    obtain ⟨timely,ended⟩ := Bool.and_eq_true_iff.mp both
    have ended := streamEnded_iff.mp ended
    refine ⟨server,ran,ended,?_⟩
    rcases (half_closed_removed (listening 2) closingAnswered server ran 1 timely).2 ended with ⟨fd,connection,found,_⟩ | closed
    · have member := AList.mem_lookup_iff.mp found
      rw [List.isEmpty_iff.mp empty] at member
      cases member
    · exact closed.1
  · obtain ⟨server,connection,ran,found,passed⟩ := @observe_true (listening 2) 7 closingInside
      (fun server connection => connection.readClosed && passes (timelyEnd connection.id) [] server.trace) (by decide +kernel)
    obtain ⟨closed,timely⟩ := Bool.and_eq_true_iff.mp passed
    exact ⟨server,connection,ran,found,closed,
      (half_closed_removed (listening 2) closingInside server ran connection.id timely).1 7 connection found rfl⟩

/-- The peer sends `PING` and closes its side before the reply is there. -/
def closingEarly : List Input :=
  accepting 7 ++ [.others [],.received ping,.clock 0,.others [],.others [],.others [],.others [],.closed,
    .others [.take,.finish 0 pong],.clock 0,.sent 7,.clock 0,.succeeded,.others [],.others [],.blocked,.others []]

/-- The peer closes its side while reading waits for the worker queue. -/
def closingUnread : List Input := saturating ++ [.closed,.succeeded,.others []]

/-- The reply has been sent, and the connection stays: it was not marked as closing, or it
was marked only after the decision to remove it. -/
theorem half_closed_leaked :
    (∃ server connection, iterations (listening 2) [closingEarly] = some server ∧
      server.connections.lookup 7 = some connection ∧ connection.readClosed = true ∧ connection.inflight = 0 ∧
      connection.output = [] ∧ connection.closing = false) ∧
    ∃ server connection, iterations (listening 1) [closingUnread] = some server ∧
      server.connections.lookup 7 = some connection ∧ connection.readClosed = true ∧ connection.inflight = 0 ∧
      connection.output = [] ∧ connection.closing = true := by
  constructor
  · obtain ⟨server,connection,ran,found,passed⟩ := @observe_true (listening 2) 7 [closingEarly]
      (fun _ connection => decide (connection.readClosed = true ∧ connection.inflight = 0 ∧ connection.output = [] ∧
        connection.closing = false)) (by decide +kernel)
    exact ⟨server,connection,ran,found,of_decide_eq_true passed⟩
  · obtain ⟨server,connection,ran,found,passed⟩ := @observe_true (listening 1) 7 [closingUnread]
      (fun _ connection => decide (connection.readClosed = true ∧ connection.inflight = 0 ∧ connection.output = [] ∧
        connection.closing = true)) (by decide +kernel)
    exact ⟨server,connection,ran,found,of_decide_eq_true passed⟩

end NovaCache.Server
