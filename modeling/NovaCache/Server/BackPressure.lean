import NovaCache.Server.ProtocolError

/-! What a full worker queue leaves behind: frames that have been received and not parsed, and
bytes that have arrived and not been received. Both wait for an event of their connection. -/
namespace NovaCache.Server
open Protocol Interaction

/-- A complete frame stands at the front of the buffer. -/
def frameReady (parser : Parser) : Bool :=
  match parser.next.1 with
  | .complete _ => true
  | _ => false

/-- Parsing that stops early leaves no complete frame, and no chunk exceeds the input buffer. -/
def leavesNothing (id : Nat) : Event → Bool
  | .met .parsingStopped found => decide (found.id = id → frameReady found.parser = false)
  | .met .protocolError found => decide (found.id = id → found.parser.bufferOversized = false)
  | _ => true

/-- The peer ends its stream behind these bytes. -/
def endsBehind (id : Nat) (stream : Bytes) (front : List Event) : Event → Bool
  | .endOfStream other => decide (other = id → (wire id front).received = stream)
  | _ => true

variable {config : ServerConfig} {place later : Position} {server next : ServerState} {fd id : Nat}
  {current changed : Connection} {events trace : List Event} {limits : ParserLimits}

/-- No complete frame is left on a connection that is not closing, if parsing leaves none whenever
it stops early. -/
theorem ParsedOut.parsedFrames (out : ParsedOut current trace) (active : current.closing = false)
    (nothing : ∀ event ∈ trace, leavesNothing current.id event = true) : frameReady current.parser = false := by
  rcases out with closing | waiting | ⟨found,member,own,same⟩
  · cases active.symm.trans closing
  · rw [frameReady,waiting]
  · rw [← same]
    exact of_decide_eq_true (nothing _ member) own

theorem next_oversized (parser : Parser) : parser.next.2.bufferOversized = parser.bufferOversized := by
  unfold Parser.next
  split
  · rfl
  · split <;> rfl

theorem foldl_received (events : List Event) (wire : Wire) : wire.received <+: (events.foldl Wire.step wire).received := by
  induction events generalizing wire with
  | nil => exact List.prefix_rfl
  | cons event events ih =>
    refine List.IsPrefix.trans ?_ (ih _)
    cases event
    case received => exact List.prefix_append _ _
    all_goals exact List.prefix_rfl

/-- What has been received and not parsed is a part of the frames that are still to come. -/
theorem Consistent.unparsed {wire : Wire} {jobs : List Job} {items : List RespValue} {stream : Bytes}
    (consistent : Consistent limits wire jobs current) (fits : current.parser.bufferOversized = false)
    (active : current.closing = false)
    (frames : Frames limits 0 items stream) (inside : wire.received <+: stream) :
    ∃ rest more, (∀ item ∈ rest, item ∈ items) ∧ Frames limits 0 rest more ∧ current.parser.buffer <+: more ∧
      (wire.received = stream → current.parser.buffer = more) := by
  obtain ⟨parsed,first,_,whole⟩ := consistent.parsed
  have split := whole active fits
  obtain ⟨rest,more,rfl,rfl,left⟩ := frames_split limits first frames
    ((List.prefix_append _ _).trans (split ▸ inside))
  refine ⟨rest,more,fun item member => List.mem_append_right _ member,left,?_,fun all => ?_⟩
  · rw [← split] at inside
    exact (List.prefix_append_right_inj parsed).mp inside
  · rw [← split] at all
    exact List.append_cancel_left all

theorem Consistent.accepts {wire : Wire} {jobs : List Job} {items : List RespValue} {stream : Bytes}
    (consistent : Consistent limits wire jobs current) (fits : current.parser.bufferOversized = false)
    (active : current.closing = false)
    (frames : Frames limits 0 items stream) (commands : ∀ item ∈ items, isCommandRequest item = true)
    (inside : wire.received <+: stream) : ¬ Refused current.parser := by
  obtain ⟨rest,more,among,left,begins,_⟩ := consistent.unparsed fits active frames inside
  intro refused
  rw [Refused,Parser.next,fits,consistent.bounded] at refused
  rcases frames_prefix limits left begins with waiting | ⟨item,items,consumed,rfl,complete⟩
  · rw [waiting] at refused
    exact refused
  · rw [complete] at refused
    cases refused.symm.trans (commands item (among item List.mem_cons_self))

theorem Consistent.leftover {wire : Wire} {jobs : List Job} {items : List RespValue} {stream : Bytes}
    (consistent : Consistent limits wire jobs current) (fits : current.parser.bufferOversized = false)
    (active : current.closing = false)
    (frames : Frames limits 0 items stream) (all : wire.received = stream) (inside : current.parser.buffer ≠ []) :
    frameReady current.parser = true := by
  obtain ⟨rest,more,_,left,_,whole⟩ := consistent.unparsed fits active frames (all ▸ List.prefix_rfl)
  obtain ⟨item,consumed,complete⟩ := frames_nonempty limits left (whole all ▸ inside)
  rw [← whole all,← consistent.bounded] at complete
  rw [frameReady,Parser.next,fits]
  simp [complete]

/-- A stream of commands that is read to its end gives no protocol error. -/
theorem Reached.unerred {items : List RespValue} {stream : Bytes} (reached : Reached config place server)
    (frames : Frames config.parserLimits 0 items stream) (commands : ∀ item ∈ items, isCommandRequest item = true)
    (arrives : (wire id server.trace).received <+: stream) (ends : passes (endsBehind id stream) [] server.trace = true)
    (nothing : server.trace.all (leavesNothing id) = true) : erred id server.trace = false := by
  induction reached with
  | start => rfl
  | @next place server later next before move ih =>
    obtain ⟨events,grown,_⟩ := move.trace
    have earlier : (wire id server.trace).received <+: (wire id next.trace).received := by
      rw [grown,wire_append]
      exact foldl_received _ _
    have old : erred id server.trace = false := by
      rw [grown] at ends nothing
      rw [passes_append] at ends
      rw [List.all_append] at nothing
      exact ih (earlier.trans arrives) (Bool.and_eq_true_iff.mp ends).1 (Bool.and_eq_true_iff.mp nothing).1
    rw [← Bool.not_eq_true]
    intro new
    obtain ⟨fd,current,parser,events,found,rfl,active,rfl,erring⟩ := move.errs new old
    have consistent := before.valid.consistent fd current found
    rw [List.all_eq_true] at nothing
    cases erring with
    | refuse refused =>
      have fits : current.advance.parser.bufferOversized = false :=
        of_decide_eq_true (nothing _ (List.mem_append_right _ List.mem_cons_self)) rfl
      rw [Connection.advance,next_oversized] at fits
      exact consistent.accepts fits active frames commands (earlier.trans arrives) refused
    | endInside settled inside =>
      have fits : current.parser.bufferOversized = false :=
        of_decide_eq_true (nothing (.met .protocolError {current with readClosed := true})
          (List.mem_append_right _ (by simp))) rfl
      change passes _ [] (server.trace ++ _) = true at ends
      rw [List.append_cons] at ends
      have all := of_decide_eq_true (passes_at ends) rfl
      rw [wire_neutral fun _ => rfl] at all
      have ready := consistent.leftover fits active frames all inside
      have unparsed := settled.trans_ne (Option.some_ne_none fd).symm
      have none := (before.parsedOut fd current unparsed found).parsedFrames active fun event member =>
        nothing event (List.mem_append_left _ member)
      cases ready.symm.trans none

/-- Between any two iterations of `run`, an open connection that is not closing has no
complete frame at the front of its buffer, and at every moment of every run a connection
that receives only commands, up to the end of its stream, gets no protocol error: if its
parsing leaves no complete frame whenever it stops early, and no chunk exceeds its buffer. -/
theorem no_command_unparsed (config : ServerConfig) :
    (∀ rounds server, iterations config rounds = some server →
      ∀ fd connection, server.connections.lookup fd = some connection → connection.closing = false →
        server.trace.all (leavesNothing connection.id) = true →
        ∀ request, connection.parser.next.1 ≠ .complete request) ∧
    ∀ inputs id items stream, Frames config.parserLimits 0 items stream →
      (∀ item ∈ items, isCommandRequest item = true) →
      (wire id (stateAfter config inputs).trace).received <+: stream →
      passes (endsBehind id stream) [] (stateAfter config inputs).trace = true →
      (stateAfter config inputs).trace.all (leavesNothing id) = true → erred id (stateAfter config inputs).trace = false := by
  refine ⟨fun rounds server ran fd connection found active nothing request complete => ?_,
    fun inputs id items stream frames commands arrives ends nothing => ?_⟩
  · have ready : frameReady connection.parser = true := by rw [frameReady,complete]
    rw [List.all_eq_true] at nothing
    have none := ((iterations_at ran).reached.parsedOut fd connection nofun found).parsedFrames active nothing
    cases ready.symm.trans none
  · obtain ⟨place,reached⟩ := run_moment config inputs
    exact reached.unerred frames commands arrives ends nothing

/-- One command fills the worker queue, and the peer closes its side when it has the reply. -/
theorem no_command_unparsed_ping :
    (∃ server connection, iterations (listening 1) [saturating ++ [.blocked,.others [],.others []]] = some server ∧
      server.connections.lookup 7 = some connection ∧ server.trace.any Event.saturates = true ∧
      ∀ request, connection.parser.next.1 ≠ .complete request) ∧
    erred 1 (stateAfter (listening 1) (saturating ++ [.closed])).trace = false := by
  obtain ⟨between,always⟩ := no_command_unparsed (listening 1)
  obtain ⟨items,frames,_,commands⟩ := ping_frames
  constructor
  · obtain ⟨server,connection,ran,found,passed⟩ := @observe_true (listening 1) 7
      [saturating ++ [.blocked,.others [],.others []]]
      (fun server connection => decide (server.trace.any Event.saturates = true ∧ connection.closing = false ∧
        server.trace.all (leavesNothing connection.id) = true)) (by decide +kernel)
    obtain ⟨stopped,active,nothing⟩ := of_decide_eq_true passed
    exact ⟨server,connection,ran,found,stopped,between _ server ran 7 connection found active nothing⟩
  · exact always _ 1 items ping frames commands ⟨[],by decide +kernel⟩ (by decide +kernel) (by decide +kernel)

/-- Two commands arrive together, and the first of them fills the worker queue. -/
def pipelined : List Input :=
  accepting 7 ++ [.others [],.received (ping ++ ping),.clock 0,.others [],.others [],.others [],.others [],.others [],
    .others [],.succeeded,.others [],.blocked,.others [.take,.finish 0 pong],.clock 0,.sent 7,.clock 0,.others [],
    .succeeded,.others []]

/-- The second command is never parsed while the peer waits for its reply, and when the peer
closes its side it gets an error. -/
theorem command_left_unparsed :
    (∃ server connection, iterations (listening 1) [pipelined ++ [.blocked,.others [],.others []]] = some server ∧
      server.connections.lookup 7 = some connection ∧ connection.closing = false ∧ connection.inflight = 0 ∧
      frameReady connection.parser = true) ∧
    (wire 1 (stateAfter (listening 1) (pipelined ++ [.closed])).trace).received = ping ++ ping ∧
    erred 1 (stateAfter (listening 1) (pipelined ++ [.closed])).trace = true := by
  refine ⟨?_,by decide +kernel,by decide +kernel⟩
  obtain ⟨server,connection,ran,found,passed⟩ := @observe_true (listening 1) 7 [pipelined ++ [.blocked,.others [],.others []]]
    (fun _ connection => decide (connection.closing = false ∧ connection.inflight = 0 ∧
      frameReady connection.parser = true)) (by decide +kernel)
  exact ⟨server,connection,ran,found,of_decide_eq_true passed⟩

end NovaCache.Server
