import NovaCache.Server.Violations

/-! The protocol error as the last reply of a connection. The error frame is appended to the
output at once, so it is the last reply if no command of the connection is under way. -/
namespace NovaCache.Server
open Protocol Interaction

/-- Every command that the bytes received begin with has been parsed. -/
def Wire.drained (limits : ParserLimits) (wire : Wire) : Bool :=
  decide (((framesIn limits wire.received).takeWhile isCommandRequest).length ≤ wire.commands.length)

/-- An error that is found on the connection behind these events waits for none of its commands. -/
def quietError (limits : ParserLimits) (id : Nat) (front : List Event) : Event → Bool
  | .met .protocolError found =>
    decide (found.id ≠ id) || decide (found.inflight = 0) && (wire id front).drained limits
  | _ => true

def errorsQuiet (limits : ParserLimits) (id : Nat) (trace : List Event) : Bool := passes (quietError limits id) [] trace

def Event.isApplied : Event → Bool
  | .applied _ _ => true
  | _ => false

def appliedCount (id : Nat) (trace : List Event) : Nat := (history id trace).countP Event.isApplied

/-- Every reply that the connection has taken is in its output. -/
def Prompt (connection : Connection) (trace : List Event) : Prop :=
  connection.closing = false → connection.nextResponseSeq = appliedCount connection.id trace ∧
    ∀ sequence, connection.pendingResponses.lookup sequence = none

variable {config : ServerConfig} {place later : Position} {server next : ServerState} {fd id : Nat}
  {current changed : Connection} {events : List Event} {held : List Job} {moved : Strand} {limits : ParserLimits}

theorem quietError_error {found : Connection} {front : List Event}
    (quiet : quietError limits found.id front (.met .protocolError found) = true) :
    found.inflight = 0 ∧ (wire found.id front).drained limits = true := by
  simpa [quietError] using quiet

theorem appliedCount_same (calm : ∀ event ∈ events, event.connection = some id → event.isApplied = false)
    (trace : List Event) : appliedCount id (trace ++ events) = appliedCount id trace := by
  have none : (history id events).countP Event.isApplied = 0 := by
    refine List.countP_eq_zero.mpr fun event member => ?_
    obtain ⟨inside,own⟩ := List.mem_filter.mp member
    rw [calm event inside (by simpa using own)]
    exact Bool.false_ne_true
  rw [appliedCount,history,List.filter_append,List.countP_append]
  exact congrArg (_ + ·) none

/-- How many replies a strand has handed to its connection. -/
def Strand.applied (strand : Strand) : Nat := if strand.phase = .applied then strand.sequence + 1 else strand.sequence

theorem Strand.step_applied {one two : Strand} {event : Event} (step : one.step event = some two) :
    two.applied = one.applied + if event.isApplied then 1 else 0 := by
  cases event with
  | launched id sequence =>
    obtain ⟨⟨paused,rfl⟩,rfl⟩ := guarded_some step
    unfold Strand.applied Strand.first Event.isApplied
    rcases paused with phase | phase <;> simp [phase]
  | submitted id sequence | applied id sequence =>
    obtain ⟨rfl,rfl⟩ := guarded_some step
    rfl
  | started id sequence =>
    rcases Strand.step_started step with ⟨rfl,rfl⟩ | ⟨rfl,rfl⟩ <;> rfl
  | executed id sequence request reply =>
    obtain ⟨here,rfl⟩ := guarded_some step
    rcases here with rfl | rfl <;> rfl
  | strandEnded id =>
    obtain ⟨phase,rfl⟩ := guarded_some step
    simp [Strand.applied,Event.isApplied,phase]
  | _ =>
    cases step
    rfl

theorem strand_applied {trace : List Event} (legal : strand id trace = some moved) :
    appliedCount id trace = moved.applied := by
  refine strand_induction (fun own moved => own.countP Event.isApplied = moved.applied) rfl ?_ legal
  intro own event one two step before
  rw [List.countP_append,before,Strand.step_applied step,List.countP_singleton]

/-- A single response in turn is moved to the output, or the connection closes. -/
theorem flushPending_single {bound : Nat} {connection : Connection} {payload : Bytes}
    (turn : connection.pendingResponses.lookup connection.nextResponseSeq = some payload)
    (single : ∀ sequence, sequence ≠ connection.nextResponseSeq → connection.pendingResponses.lookup sequence = none)
    (active : (flushPending config (bound + 2) connection).closing = false) :
    (flushPending config (bound + 2) connection).nextResponseSeq = connection.nextResponseSeq + 1 ∧
      ∀ sequence, (flushPending config (bound + 2) connection).pendingResponses.lookup sequence = none := by
  have gone : ∀ sequence, (connection.pendingResponses.erase connection.nextResponseSeq).lookup sequence = none := by
    intro sequence
    by_cases same : sequence = connection.nextResponseSeq
    · rw [same,AList.lookup_erase]
    · rw [AList.lookup_erase_ne same,single sequence same]
  unfold flushPending at active ⊢
  rw [turn] at active ⊢
  dsimp only at active ⊢
  split at active
  · cases active
  · next fits =>
    rw [if_neg fits]
    unfold flushPending
    rw [gone]
    exact ⟨rfl,gone⟩

theorem Prompt.respond {completion : Completion} {now : Int} {trace : List Event} (prompt : Prompt current trace)
    (turn : completion.sequence = appliedCount current.id trace)
    (active : (current.respond config completion now).closing = false) :
    (current.respond config completion now).nextResponseSeq = appliedCount current.id trace + 1 ∧
      ∀ sequence, (current.respond config completion now).pendingResponses.lookup sequence = none := by
  have before : current.closing = false := by
    rcases (respond_flushed config completion now current).closes with kept | closed
    · exact kept.1.symm.trans active
    · cases active.symm.trans closed.1
  obtain ⟨count,none⟩ := prompt before
  have absent : completion.sequence ∉ current.pendingResponses := AList.lookup_eq_none.mp (none completion.sequence)
  have accepted : (current.accept completion).pendingResponses =
      current.pendingResponses.insert completion.sequence completion.payload := if_neg absent
  have inTurn : completion.sequence = current.nextResponseSeq := turn.trans count.symm
  have size : (current.accept completion).pendingResponses.entries.length + 1 =
      current.pendingResponses.entries.length + 2 := by
    rw [accepted,AList.entries_insert_of_notMem absent]
    rfl
  have flushed := @flushPending_single config current.pendingResponses.entries.length (current.accept completion)
    completion.payload ?_ ?_ (size ▸ active)
  · rw [← count]
    unfold Connection.respond
    dsimp only
    rw [size]
    exact flushed
  · rw [accepted,inTurn]
    exact AList.lookup_insert _
  · intro sequence different
    rw [accepted,inTurn]
    exact (AList.lookup_insert_ne different).trans (none sequence)

/-- The reply that is due is that of the command of the strand. -/
theorem Follows.due {completion : Completion} (follows : Follows place server current.id moved)
    (found : server.connections.lookup fd = some current) (own : current.id = completion.connectionId)
    (due : completion ∈ server.draining) : moved = ⟨.completed,completion.sequence⟩ := by
  have member : completion.sequence ∈ completedOf server current.id := by
    refine List.mem_map.mpr ⟨completion,List.mem_filter.mpr ⟨List.mem_append_right _ due,?_⟩,rfl⟩
    simpa using own.symm
  rw [(follows.opened found).completed] at member
  unfold Strand.share at member
  split at member
  · next phase =>
    obtain ⟨_,sequence⟩ := moved
    cases phase
    rw [List.mem_singleton.mp member]
  · cases member

theorem Change.prompt {parsing : Option Nat} {trace : List Event} (change : Change parsing current events changed)
    (prompt : Prompt current trace) : Prompt changed (trace ++ events) := by
  have count : appliedCount current.id (trace ++ events) = appliedCount current.id trace := by
    refine appliedCount_same (fun event member _ => ?_) trace
    revert event
    cases change <;> simp [Event.isApplied]
  intro active
  rw [change.own.1,count]
  cases change with
  | register | note | block | send | endBusy => exact prompt active
  | breaks | refuse | endInside | endIdle => cases active

theorem Deed.prompt (deed : Deed config place server fd current later events changed)
    (found : server.connections.lookup fd = some current) (follows : Follows place server current.id moved)
    (prompt : Prompt current server.trace) : Prompt changed (server.trace ++ events) := by
  cases deed with
  | change change => exact change.prompt prompt
  | apply completion now own due =>
    cases follows.due found own due
    intro active
    have turn := strand_applied follows.legal
    rw [respond_id,← List.append_assoc,
      appliedCount_same ?_ _]
    · have one : appliedCount current.id (server.trace ++ [.applied current.id completion.sequence]) =
          appliedCount current.id server.trace + 1 := by
        rw [appliedCount,history,List.filter_append,List.countP_append]
        simp [appliedCount,history,Event.connection,Event.isApplied]
      rw [one]
      exact prompt.respond turn.symm active
    · intro event member _
      rw [overflow_own _ _ event member]
      rfl
  | _ =>
    intro active
    rw [appliedCount_same (List.forall_mem_singleton.mpr fun _ => rfl)]
    exact prompt active

theorem Reached.prompt (reached : Reached config place server) :
    ∀ fd connection, server.connections.lookup fd = some connection → Prompt connection server.trace := by
  induction reached with
  | start => exact fun fd connection found => (initial_empty found).elim
  | next before move ih =>
    intro fd changed found
    obtain ⟨events,grown,cases⟩ := move.deed before.valid found
    rw [grown]
    rcases cases with ⟨same,remote⟩ | ⟨current,old,_,deed⟩ | ⟨now,rfl,rfl,_⟩
    · intro active
      rw [appliedCount_same]
      · exact ih fd changed same active
      · intro event member own
        have job := (remote event member).remote own
        cases event <;> first | rfl | cases job
    · obtain ⟨moved,follows⟩ := before.ordered.strands current.id
      exact deed.prompt old follows (ih fd current old)
    · obtain ⟨moved,follows⟩ := before.ordered.strands (ServerState.nextConnectionId _)
      intro _
      refine ⟨?_,fun _ => rfl⟩
      rw [appliedCount_same (List.forall_mem_singleton.mpr fun _ => rfl)]
      refine Eq.symm ((strand_applied follows.legal).trans ?_)
      rw [follows.fresh (le_refl _)]
      rfl

/-- Events that a connection without commands can go through unchanged. -/
def Event.calm : Event → Bool
  | .received _ _ | .parsed _ _ | .launched _ _ | .sent _ _ | .sendClosed _ => false
  | _ => true

theorem Strand.step_calm {one two : Strand} {event : Event} (step : one.step event = some two) (calm : event.calm = true)
    (still : one.waiting = 0) (wire : Wire) : wire.step event = wire ∧ two.waiting = 0 := by
  cases event with
  | received | parsed | launched | sent | sendClosed => cases calm
  | submitted id sequence | applied id sequence =>
    obtain ⟨rfl,_⟩ := guarded_some step
    cases still
  | started id sequence => rcases Strand.step_started step with ⟨rfl,_⟩ | ⟨rfl,_⟩ <;> cases still
  | executed id sequence request reply =>
    obtain ⟨rfl | rfl,_⟩ := guarded_some step <;> cases still
  | strandEnded id =>
    obtain ⟨_,rfl⟩ := guarded_some step
    exact ⟨rfl,rfl⟩
  | _ =>
    cases step
    exact ⟨rfl,still⟩

theorem strand_calm {one two : Strand} (calm : ∀ event ∈ events, event.calm = true)
    (legal : events.foldlM Strand.step one = some two) (still : one.waiting = 0) (wire : Wire) :
    events.foldl Wire.step wire = wire ∧ two.waiting = 0 := by
  induction events generalizing one with
  | nil =>
    cases legal
    exact ⟨rfl,still⟩
  | cons event events ih =>
    rw [List.foldlM_cons] at legal
    obtain ⟨middle,step,rest⟩ := Option.bind_eq_some_iff.mp legal
    obtain ⟨head,tail⟩ := List.forall_mem_cons.mp calm
    obtain ⟨same,quiet⟩ := Strand.step_calm step head still wire
    rw [List.foldl_cons,same]
    exact ih tail rest quiet

/-- The connection has every reply, the error behind them, and nothing more to come. -/
structure Concluded (config : ServerConfig) (server : ServerState) (id : Nat) : Prop where
  known : id < server.nextConnectionId
  quiet : ∃ moved, strand id server.trace = some moved ∧ moved.waiting = 0
  drained : (wire id server.trace).commands =
    (framesIn config.parserLimits (wire id server.trace).received).takeWhile isCommandRequest
  closed : ∀ fd connection, server.connections.lookup fd = some connection → connection.id = id →
    connection.closing = true ∧ connection.inflight = 0
  replied : ∃ payloads, payloads.length = (wire id server.trace).commands.length ∧
    AllAnswered (wire id server.trace) payloads ∧
    (wire id server.trace).sent <+: payloads.flatten ++ protocolErrorFrame ∧
    ∀ fd connection, server.connections.lookup fd = some connection → connection.id = id →
      (wire id server.trace).sent ++ connection.output = payloads.flatten ++ protocolErrorFrame

theorem Concluded.keep (concluded : Concluded config server id) (grown : next.trace = server.trace ++ events)
    (legal : strand id next.trace = some moved) (count : server.nextConnectionId ≤ next.nextConnectionId)
    (calm : ∀ event ∈ events, event.connection = some id → event.calm = true)
    (connections : ∀ fd connection, next.connections.lookup fd = some connection → connection.id = id →
      ∃ old, server.connections.lookup fd = some old ∧ old.id = id ∧ connection.output = old.output ∧
        connection.closing = old.closing ∧ connection.inflight = old.inflight) : Concluded config next id := by
  obtain ⟨earlier,before,still⟩ := concluded.quiet
  rw [grown,strand_append,before] at legal
  have own : ∀ event ∈ history id events, event.calm = true := fun event member =>
    calm event (List.mem_filter.mp member).1 (by simpa using (List.mem_filter.mp member).2)
  obtain ⟨same,quiet⟩ := strand_calm own legal still (wire id server.trace)
  have wires : wire id next.trace = wire id server.trace := by rw [grown,wire_append,same]
  obtain ⟨payloads,length,all,sent,output⟩ := concluded.replied
  refine ⟨lt_of_lt_of_le concluded.known count,⟨moved,?_,quiet⟩,?_,fun fd connection found mine => ?_,payloads,?_⟩
  · rw [grown,strand_append,before]
    exact legal
  · rw [wires]
    exact concluded.drained
  · obtain ⟨old,lookup,mine',_,closing,inflight⟩ := connections fd connection found mine
    rw [closing,inflight]
    exact concluded.closed fd old lookup mine'
  · rw [wires]
    refine ⟨length,all,sent,fun fd connection found mine => ?_⟩
    obtain ⟨old,lookup,mine',same,_⟩ := connections fd connection found mine
    rw [same]
    exact output fd old lookup mine'

theorem Concluded.send (concluded : Concluded config server current.id) (valid : Valid config held server)
    (found : server.connections.lookup fd = some current) (count : Nat) (now : Int) :
    Concluded config (server.put fd {current with output := current.output.drop count, lastActivity := now}
      [.sent current.id (current.output.take count)]) current.id := by
  obtain ⟨earlier,before,still⟩ := concluded.quiet
  obtain ⟨payloads,length,all,_,output⟩ := concluded.replied
  have wires : wire current.id (server.trace ++ [.sent current.id (current.output.take count)]) =
      {wire current.id server.trace with
        sent := (wire current.id server.trace).sent ++ current.output.take count
        resumed := (wire current.id server.trace).resumed || (wire current.id server.trace).broken} :=
    wire_own (List.forall_mem_singleton.mpr rfl)
  have joined : (wire current.id server.trace).sent ++ current.output.take count ++ current.output.drop count =
      payloads.flatten ++ protocolErrorFrame := by
    rw [List.append_assoc,List.take_append_drop]
    exact output fd current found rfl
  have only : ∀ other connection, (server.connections.insert fd
      {current with output := current.output.drop count, lastActivity := now}).lookup other = some connection →
      connection.id = current.id →
        connection = {current with output := current.output.drop count, lastActivity := now} := by
    intro other connection at_ mine
    rw [lookup_insert] at at_
    split at at_
    · exact (Option.some.inj at_).symm
    · next there => exact absurd (valid.unique _ _ _ _ at_ found mine) there
  refine ⟨concluded.known,⟨earlier,?_,still⟩,?_,fun other connection at_ mine => ?_,payloads,?_⟩
  · exact strand_own before rfl rfl
  · change (wire current.id (server.trace ++ _)).commands = _
    rw [ServerState.put,wires]
    exact concluded.drained
  · rw [only other connection at_ mine]
    exact concluded.closed fd current found rfl
  · rw [ServerState.put,wires]
    refine ⟨length,?_,⟨_,joined⟩,fun other connection at_ mine => ?_⟩
    · exact fun index payload at_ => (all index payload at_).extend List.prefix_rfl rfl
    · rw [only other connection at_ mine]
      exact joined

/-- A step of one connection does not matter to another. -/
theorem Concluded.beside (concluded : Concluded config server id) (other : current.id ≠ id)
    (connections : next.connections = server.connections.insert fd changed) (same : changed.id = current.id)
    (grown : next.trace = server.trace ++ events) (own : ∀ event ∈ events, event.connection = some current.id)
    (legal : strand id next.trace = some moved) (count : server.nextConnectionId ≤ next.nextConnectionId) :
    Concluded config next id := by
  refine concluded.keep grown legal count (fun event member mine => ?_) fun beside connection found mine => ?_
  · exact absurd (Option.some.inj ((own event member).symm.trans mine)) other
  · rw [connections,lookup_insert] at found
    split at found
    · cases found
      exact absurd (same.symm.trans mine) other
    · exact ⟨connection,found,mine,rfl,rfl,rfl⟩

theorem Concluded.within (concluded : Concluded config server id) (found : server.connections.lookup fd = some current)
    (connections : next.connections = server.connections.insert fd changed) (same : changed.id = current.id)
    (kept : changed.output = current.output ∧ changed.closing = current.closing ∧ changed.inflight = current.inflight)
    (grown : next.trace = server.trace ++ events) (calm : ∀ event ∈ events, event.calm = true)
    (legal : strand id next.trace = some moved) (count : server.nextConnectionId ≤ next.nextConnectionId) :
    Concluded config next id := by
  refine concluded.keep grown legal count (fun event member _ => calm event member) fun other connection at_ mine => ?_
  rw [connections,lookup_insert] at at_
  split at at_
  · next here =>
    cases at_
    exact ⟨current,here ▸ found,same.symm.trans mine,kept⟩
  · exact ⟨connection,at_,mine,rfl,rfl,rfl⟩

/-- An open connection has no command left. -/
theorem Concluded.idle (concluded : Concluded config server id) (follows : Follows place server id moved)
    (found : server.connections.lookup fd = some current) (mine : current.id = id) :
    current.commandQueue = [] ∧ moved.waiting = 0 := by
  have none := (concluded.closed fd current found mine).2
  rw [(follows.steady fd current found mine).inflight,Nat.add_eq_zero_iff] at none
  exact ⟨List.length_eq_zero_iff.mp none.1,none.2⟩

theorem Concluded.change (concluded : Concluded config server id) (valid : Valid config held server)
    (found : server.connections.lookup fd = some current)
    (change : Change place.parsing current events changed)
    (legal : strand id (server.trace ++ events) = some moved) (whole : (wire id (server.trace ++ events)).broken = false) :
    Concluded config (server.put fd changed events) id := by
  by_cases mine : current.id = id
  · subst mine
    have closing := (concluded.closed fd current found rfl).1
    cases change with
    | register | note | block =>
      exact concluded.within found rfl rfl ⟨rfl,rfl,rfl⟩ rfl (by simp [Event.calm]) legal (le_refl _)
    | send count now => exact concluded.send valid found count now
    | breaks =>
      rw [wire_own (List.forall_mem_singleton.mpr rfl)] at whole
      cases whole
    | refuse active | endInside active | endIdle active | endBusy active => cases closing.symm.trans active
  · exact concluded.beside mine rfl change.own.1 rfl change.own.2 legal (le_refl _)

theorem Move.concluded (move : Move config place server later next) (valid : Valid config held server)
    (follows : Follows place server id moved) {after : Strand} (legal : strand id next.trace = some after)
    (concluded : Concluded config server id) (whole : (wire id next.trace).broken = false) :
    Concluded config next id := by
  have same : ∀ fd connection, server.connections.lookup fd = some connection → connection.id = id →
      ∃ old, server.connections.lookup fd = some old ∧ old.id = id ∧ connection.output = old.output ∧
        connection.closing = old.closing ∧ connection.inflight = old.inflight :=
    fun fd connection found mine => ⟨connection,found,mine,rfl,rfl,rfl⟩
  have active : ∀ {fd connection}, server.connections.lookup fd = some connection → connection.closing = false →
      connection.id ≠ id := fun found open_ mine => by
    cases (concluded.closed _ _ found mine).1.symm.trans open_
  cases move with
  | take =>
    obtain ⟨events,grown,started⟩ := take_trace server
    refine concluded.keep grown legal (le_of_eq (take_count server).symm) (fun event member _ => ?_) ?_
    · obtain ⟨_,_,rfl⟩ := started event member
      rfl
    · rw [take_connections]
      exact same
  | finish | submit | start | complete | raise | blocked | full =>
    exact concluded.keep rfl legal (le_refl _) (List.forall_mem_singleton.mpr fun _ => rfl) same
  | report event => exact concluded.keep rfl legal (le_refl _) (List.forall_mem_singleton.mpr fun _ => rfl) same
  | change found _ change => exact concluded.change valid found change legal whole
  | receive bytes now found _ _ _ open_ | enqueue found _ _ open_ =>
    exact concluded.beside (active found open_) rfl rfl rfl (List.forall_mem_singleton.mpr rfl) legal (le_refl _)
  | @launch fd connection item rest found _ _ _ queue =>
    have other : connection.id ≠ id := fun mine => by
      cases queue.symm.trans (concluded.idle follows found mine).1
    exact concluded.beside other rfl rfl rfl (List.forall_mem_singleton.mpr rfl) legal (le_refl _)
  | strandEnd found =>
    exact concluded.within found rfl rfl ⟨rfl,rfl,rfl⟩ rfl (List.forall_mem_singleton.mpr rfl) legal (le_refl _)
  | @apply fd connection completion rest now found _ _ _ own draining =>
    have other : connection.id ≠ id := fun mine => by
      have still := (concluded.idle follows found mine).2
      subst mine
      rw [follows.due found own (draining ▸ List.mem_cons_self)] at still
      cases still
    exact concluded.beside other rfl (respond_id _ _ _ _) rfl (applied_own _ _ _) legal (le_refl _)
  | @accept fd now =>
    refine concluded.keep rfl legal (Nat.le_succ _) (List.forall_mem_singleton.mpr fun _ => rfl) ?_
    intro other connection found mine
    rw [lookup_insert] at found
    split at found
    · cases found
      exact absurd mine (Nat.ne_of_gt concluded.known)
    · exact same other connection found mine
  | @close fd =>
    refine concluded.keep rfl legal (le_refl _) (List.forall_mem_singleton.mpr fun _ => rfl) ?_
    intro other connection found mine
    exact same other connection (lookup_erase_some found).2 mine
  | stop | parsed | approach | read | discard | drain | widen | release =>
    exact concluded.keep (List.append_nil _).symm legal (le_refl _) (List.forall_mem_nil _) same

/-- The commands are those that the bytes received begin with, as far as these are commands. -/
theorem Reached.drained (reached : Reached config place server)
    (drained : (wire id server.trace).drained config.parserLimits = true) :
    (wire id server.trace).commands =
      (framesIn config.parserLimits (wire id server.trace).received).takeWhile isCommandRequest := by
  obtain ⟨parsed,frames,rest,received⟩ := (reached.valid.tracked id).ordered
  have split := framesIn_frames config.parserLimits frames rest
  rw [received] at split
  have few := of_decide_eq_true drained
  rw [split,List.takeWhile_append_of_pos reached.commands] at few ⊢
  rw [List.length_append] at few
  have none : (framesIn config.parserLimits rest).takeWhile isCommandRequest = [] :=
    List.length_eq_zero_iff.mp (by omega)
  rw [none,List.append_nil]

theorem Strand.first_applied (still : moved.waiting = 0) : moved.first = moved.applied := by
  obtain ⟨phase,sequence⟩ := moved
  cases phase <;> first | rfl | cases still

/-- Without commands under way the error stands behind every reply. -/
theorem Reached.fail {parser : Parser} (reached : Reached config place server)
    (found : server.connections.lookup fd = some current) (active : current.closing = false) (idle : current.inflight = 0)
    (drained : (wire current.id server.trace).drained config.parserLimits = true)
    (whole : (wire current.id server.trace).broken = false)
    (neutral : wire current.id (server.trace ++ events) = wire current.id server.trace)
    (steady : strand current.id (server.trace ++ events) = strand current.id server.trace) :
    Concluded config (server.put fd {current with parser := parser}.fail events) current.id := by
  have valid := reached.valid
  have consistent := valid.consistent fd current found
  obtain ⟨payloads,frames,sending⟩ := consistent.sending
  obtain ⟨moved,follows⟩ := reached.ordered.strands current.id
  have here := follows.opened found
  obtain ⟨empty,still⟩ : current.commandQueue.length = 0 ∧ moved.waiting = 0 := by
    rw [← Nat.add_eq_zero_iff,← here.inflight,idle]
  have length : payloads.length = (wire current.id server.trace).commands.length := by
    rw [sending.count,(reached.prompt fd current found active).1,strand_applied follows.legal,← consistent.requests,
      here.requests,empty,Strand.first_applied still]
    rfl
  have plain : frames = payloads.flatten := by
    refine sending.framed.resolve_right fun other => ?_
    cases active.symm.trans other.1
  have sent : (wire current.id server.trace).sent ++ (current.output ++ protocolErrorFrame) =
      payloads.flatten ++ protocolErrorFrame := by
    have joined := sending.sent
    rw [whole] at joined
    rw [← List.append_assoc,← plain]
    exact congrArg (· ++ protocolErrorFrame) joined
  have only : ∀ other connection,
      (server.connections.insert fd {current with parser := parser}.fail).lookup other = some connection →
      connection.id = current.id → connection = {current with parser := parser}.fail := by
    intro other connection at_ mine
    rw [lookup_insert] at at_
    split at at_
    · exact (Option.some.inj at_).symm
    · next there => exact absurd (valid.unique _ _ _ _ at_ found mine) there
  refine ⟨valid.below fd current found,⟨moved,steady.trans follows.legal,still⟩,?_,fun other connection at_ mine => ?_,
    payloads,?_⟩
  · rw [ServerState.put,neutral]
    exact reached.drained drained
  · rw [only other connection at_ mine]
    exact ⟨rfl,idle⟩
  · rw [ServerState.put,neutral]
    refine ⟨length,sending.answered,⟨_,sent⟩,fun other connection at_ mine => ?_⟩
    rw [only other connection at_ mine]
    exact sent

/-- Where an error is found, and what is recorded there. -/
inductive Erring (parsing : Option Nat) (connection : Connection) : List Event → Prop
  | refuse (refused : Refused connection.parser) :
      Erring parsing connection [.met .protocolError connection.advance,.protocolError connection.id]
  | endInside (settled : parsing = none) (inside : connection.parser.buffer ≠ []) :
      Erring parsing connection [.met .endOfStream connection,.endOfStream connection.id,
        .met .protocolError {connection with readClosed := true},.protocolError connection.id]

theorem Change.errs {parsing : Option Nat} (change : Change parsing current events changed)
    (new : erred id events = true) :
    current.id = id ∧ current.closing = false ∧ (∃ parser, changed = {current with parser := parser}.fail) ∧
      Erring parsing current events := by
  cases change with
  | refuse active refused => exact ⟨by simpa [erred] using new,active,⟨_,rfl⟩,.refuse refused⟩
  | endInside active settled inside => exact ⟨by simpa [erred] using new,active,⟨_,rfl⟩,.endInside settled inside⟩
  | _ => cases new

/-- An error is found on the connection itself. -/
theorem Move.errs (move : Move config place server later next) (new : erred id next.trace = true)
    (old : erred id server.trace = false) :
    ∃ fd current parser events, server.connections.lookup fd = some current ∧ current.id = id ∧
      current.closing = false ∧ next = server.put fd {current with parser := parser}.fail events ∧
      Erring place.parsing current events := by
  have silent : ∀ {events}, erred id (server.trace ++ events) = true → erred id events = true := by
    intro events grown
    rwa [erred_append,old,Bool.false_or] at grown
  cases move with
  | take =>
    obtain ⟨events,grown,started⟩ := take_trace server
    rw [grown] at new
    obtain ⟨event,member,found⟩ := List.any_eq_true.mp (silent new)
    obtain ⟨_,_,rfl⟩ := started event member
    cases found
  | change found _ change =>
    obtain ⟨mine,active,⟨parser,rfl⟩,shape⟩ := change.errs (silent new)
    exact ⟨_,_,parser,_,found,mine,active,rfl,shape⟩
  | apply =>
    have extra := silent new
    unfold Connection.overflow at extra
    split at extra <;> cases extra
  | stop | parsed | approach | read | discard | drain | widen | release => cases old.symm.trans new
  | _ => cases silent new

theorem broken_append {trace : List Event} (whole : (wire id (trace ++ events)).broken = false) :
    (wire id trace).broken = false := by
  rw [wire_append] at whole
  generalize history id events = own at whole
  induction own using List.reverseRecOn with
  | nil => exact whole
  | append_singleton own event ih =>
    rw [List.foldl_append] at whole
    refine ih ?_
    cases event <;> first | exact whole | cases whole

/-- Errors that wait for no command are the last reply of their connection. -/
theorem Reached.concluded (reached : Reached config place server) (failed : erred id server.trace = true)
    (whole : (wire id server.trace).broken = false)
    (quiet : errorsQuiet config.parserLimits id server.trace = true) : Concluded config server id := by
  induction reached with
  | start => cases failed
  | @next place server later next before move ih =>
    obtain ⟨events,grown,_⟩ := move.trace
    have wholeBefore := broken_append (grown ▸ whole)
    have quietBefore : errorsQuiet config.parserLimits id server.trace = true := by
      rw [grown,errorsQuiet,passes_append] at quiet
      exact (Bool.and_eq_true_iff.mp quiet).1
    cases old : erred id server.trace with
    | true =>
      obtain ⟨moved,follows⟩ := before.ordered.strands id
      obtain ⟨after,following⟩ := (before.next move).ordered.strands id
      exact move.concluded before.valid follows following.legal (ih old wholeBefore quietBefore) whole
    | false =>
      obtain ⟨fd,current,parser,events,found,rfl,active,rfl,shape⟩ := move.errs failed old
      have neutral : wire current.id (server.trace ++ events) = wire current.id server.trace := by
        cases shape <;> exact wire_own (by simp [Event.connection])
      have steady : strand current.id (server.trace ++ events) = strand current.id server.trace :=
        strand_neutral (by cases shape <;> simp [Strand.step])
      have check : current.inflight = 0 ∧ (wire current.id server.trace).drained config.parserLimits = true := by
        cases shape with
        | refuse => exact @quietError_error config.parserLimits current.advance _ (passes_at quiet)
        | endInside =>
          -- the end of the stream is recorded before the error
          change passes _ [] (server.trace ++ _) = true at quiet
          rw [List.append_cons,List.append_cons] at quiet
          obtain ⟨idle,drained⟩ := @quietError_error config.parserLimits {current with readClosed := true} _ (passes_at quiet)
          rw [wire_neutral fun _ => rfl,wire_neutral fun _ => rfl] at drained
          exact ⟨idle,drained⟩
      exact before.fail found active check.1 check.2 wholeBefore neutral steady

/-- Parsing that stops early leaves no more than the beginning of a frame. -/
def stopsClear (id : Nat) : Event → Bool
  | .met .parsingStopped found => decide (found.id = id → pending found.parser = false)
  | _ => true

theorem broken_of_sendClosed {trace : List Event} (member : .sendClosed id ∈ trace) : (wire id trace).broken = true := by
  obtain ⟨front,back,rfl⟩ := List.append_of_mem member
  rw [List.append_cons]
  by_contra whole
  have before := broken_append (Bool.not_eq_true _ ▸ whole)
  rw [wire_own (List.forall_mem_singleton.mpr rfl)] at before
  cases before

/-- A connection without an excuse has an error. -/
theorem Excused.erred {trace : List Event} (excused : Excused id trace) (whole : (wire id trace).broken = false)
    (room : .overflowed id ∉ trace) (clear : trace.all (stopsClear id) = true) : erred id trace = true := by
  rcases excused with failed | full | broken | ⟨found,member,own,left⟩
  · exact failed
  · exact absurd full room
  · cases whole.symm.trans (broken_of_sendClosed broken)
  · cases left.symm.trans (of_decide_eq_true (List.all_eq_true.mp clear _ member) own)

theorem ping_frames : ∃ items, Frames .default 0 items ping ∧ items.length = 1 ∧
    ∀ item ∈ items, isCommandRequest item = true := by
  have parsed : parseValue ping 0 .default = .complete (.array (some [.bulk (some [0x50,0x49,0x4E,0x47])])) 14 := by rfl
  obtain ⟨_,frame⟩ := (parseValue_complete_iff 0 _ _ _).mp parsed
  exact ⟨_,frames_append (.nil 0) frame,rfl,List.forall_mem_singleton.mpr rfl⟩

end NovaCache.Server
