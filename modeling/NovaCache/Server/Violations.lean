import NovaCache.Server.Connections
import NovaCache.Protocol.Fragmentation

/-! Streams that break the protocol. The bytes received from a connection are parsed until they
are used up or refused, in whatever chunks they come, unless a full worker queue stops it
early. So what is no command is found, and an error is recorded for it. -/
namespace NovaCache.Server
open Protocol Interaction

def erred (id : Nat) (trace : List Event) : Bool := trace.any fun
  | .protocolError other => decide (other = id)
  | _ => false

/-- The parser has more than the beginning of a frame. -/
def pending (parser : Parser) : Bool :=
  match parser.next.1 with
  | .incomplete => false
  | _ => true

def CutShort (id : Nat) (trace : List Event) : Prop :=
  ∃ found, .met .parsingStopped found ∈ trace ∧ found.id = id ∧ pending found.parser = true

/-- Why a violation may go without an error: the connection closes for something else, or is not
parsed to the end. -/
def Excused (id : Nat) (trace : List Event) : Prop :=
  erred id trace = true ∨ .overflowed id ∈ trace ∨ .sendClosed id ∈ trace ∨ CutShort id trace

/-- A connection that has been parsed waits for more, unless it closes or its parsing stopped early. -/
def ParsedOut (connection : Connection) (trace : List Event) : Prop :=
  connection.closing = true ∨ connection.parser.next.1 = .incomplete ∨
    ∃ found, .met .parsingStopped found ∈ trace ∧ found.id = connection.id ∧ found.parser = connection.parser

variable {config : ServerConfig} {place later : Position} {server next : ServerState} {fd id : Nat}
  {current changed : Connection} {events trace : List Event} {limits : ParserLimits}

theorem erred_append (id : Nat) (trace events : List Event) :
    erred id (trace ++ events) = (erred id trace || erred id events) := List.any_append

theorem erred_iff : erred id trace = true ↔ .protocolError id ∈ trace := by
  refine List.any_eq_true.trans ⟨?_,fun member => ⟨_,member,decide_eq_true rfl⟩⟩
  rintro ⟨event,member,here⟩
  cases event with
  | protocolError other => exact of_decide_eq_true here ▸ member
  | _ => cases here

theorem parse_empty (limits : ParserLimits) : parseValue [] 0 limits = .incomplete := by
  rw [parseValue_eq]
  rfl

theorem ParsedOut.stays (out : ParsedOut current trace) (grown : trace ⊆ events) : ParsedOut current events := by
  rcases out with closing | waiting | ⟨found,member,facts⟩
  · exact Or.inl closing
  · exact Or.inr (Or.inl waiting)
  · exact Or.inr (Or.inr ⟨found,grown member,facts⟩)

theorem ParseEnded.parsedOut (ended : ParseEnded current trace) : ParsedOut current trace := by
  rcases ended with closing | waiting | stopped
  · exact Or.inl closing
  · exact Or.inr (Or.inl waiting)
  · exact Or.inr (Or.inr ⟨current,stopped,rfl,rfl⟩)

/-- Parsing goes on until its end has been reached. -/
theorem Move.parsing (move : Move config place server later next) (parsing : place.parsing = some fd) :
    later.parsing = some fd ∨ next = server ∧
      ∃ connection, server.connections.lookup fd = some connection ∧ ParseEnded connection server.trace := by
  cases move with
  | receive _ _ _ _ settled => cases settled.symm.trans parsing
  | @parsed other connection found there ended =>
    cases there.symm.trans parsing
    exact Or.inr ⟨rfl,connection,found,ended⟩
  | _ => exact Or.inl parsing

theorem Change.parsedOut {parsing : Option Nat} (change : Change parsing current events changed)
    (out : ParsedOut current trace) : ParsedOut changed (trace ++ events) := by
  have stays := out.stays (List.subset_append_left trace events)
  cases change with
  | register | note | block | send | endBusy => exact stays
  | breaks | refuse | endInside | endIdle => exact Or.inl rfl

theorem Deed.parsedOut (deed : Deed config place server fd current later events changed)
    (settled : later.parsing ≠ some fd) (out : ParsedOut current trace) : ParsedOut changed (trace ++ events) := by
  have stays := out.stays (List.subset_append_left trace events)
  cases deed with
  | change change => exact change.parsedOut out
  | receive => exact absurd rfl settled
  | enqueue parsing => exact absurd parsing settled
  | launch | strandEnd => exact stays
  | apply completion now =>
    have flushed := respond_flushed config completion now current
    have parser : (current.respond config completion now).parser = current.parser := flushed.parser
    rcases stays with already | waiting | stopped
    · exact Or.inl (flushed.closes.elim (fun kept => kept.1.trans already) And.left)
    · exact Or.inr (Or.inl (by rw [parser,waiting]))
    · exact Or.inr (Or.inr (by rwa [respond_id,parser]))

theorem Reached.parsedOut (reached : Reached config place server) : ∀ fd connection, place.parsing ≠ some fd →
    server.connections.lookup fd = some connection → ParsedOut connection server.trace := by
  induction reached with
  | start => exact fun fd connection _ found => (initial_empty found).elim
  | @next place server later next before move ih =>
    intro fd changed settled found
    by_cases parsing : place.parsing = some fd
    · rcases move.parsing parsing with still | ⟨rfl,connection,lookup,ended⟩
      · exact absurd still settled
      · cases lookup.symm.trans found
        exact ended.parsedOut
    · obtain ⟨events,grown,cases⟩ := move.deed before.valid found
      rw [grown]
      rcases cases with ⟨same,_⟩ | ⟨current,old,_,deed⟩ | ⟨now,rfl,_⟩
      · exact (ih fd changed parsing same).stays (List.subset_append_left _ _)
      · exact deed.parsedOut settled (ih fd current parsing old)
      · refine Or.inr (Or.inl ?_)
        simp [Connection.new,Parser.next,Parser.new,parse_empty]

/-- A connection that is not closing has nothing left to parse. -/
theorem ParsedOut.waits (out : ParsedOut current trace) (active : current.closing = false) :
    current.parser.next.1 = .incomplete ∨ CutShort current.id trace := by
  rcases out with closing | waiting | ⟨found,member,own,same⟩
  · cases active.symm.trans closing
  · exact Or.inl waiting
  · cases left : pending current.parser with
    | true => exact Or.inr ⟨found,member,own,by rwa [same]⟩
    | false =>
      refine Or.inl ?_
      unfold pending at left
      split at left
      · next waiting => exact waiting
      · cases left

theorem Excused.stays (excused : Excused id trace) (grown : trace ⊆ events) : Excused id events := by
  rcases excused with failed | full | broken | ⟨found,member,facts⟩
  · exact Or.inl (erred_iff.mpr (grown (erred_iff.mp failed)))
  · exact Or.inr (Or.inl (grown full))
  · exact Or.inr (Or.inr (Or.inl (grown broken)))
  · exact Or.inr (Or.inr (Or.inr ⟨found,grown member,facts⟩))

/-- Only commands are parsed. -/
theorem Reached.parsed_command (reached : Reached config place server) {request : RespValue}
    (member : .parsed id request ∈ server.trace) : isCommandRequest request = true := by
  induction reached with
  | start => cases member
  | next _ move ih =>
    obtain ⟨events,grown,occurs⟩ := move.trace
    rw [grown] at member
    rcases List.mem_append.mp member with old | new
    · exact ih old
    · exact occurs _ new

theorem foldl_parsed {wire : Wire} {request : RespValue} (member : request ∈ (events.foldl Wire.step wire).commands) :
    request ∈ wire.commands ∨ ∃ id, .parsed id request ∈ events := by
  induction events generalizing wire with
  | nil => exact Or.inl member
  | cons event events ih =>
    rcases ih member with old | ⟨id,later⟩
    · cases event
      case parsed id command =>
        rcases List.mem_append.mp old with old | new
        · exact Or.inl old
        · cases List.mem_singleton.mp new
          exact Or.inr ⟨id,List.mem_cons_self⟩
      all_goals exact Or.inl old
    · exact Or.inr ⟨id,List.mem_cons_of_mem _ later⟩

theorem Reached.commands (reached : Reached config place server) :
    ∀ request ∈ (wire id server.trace).commands, isCommandRequest request = true := by
  intro request member
  obtain old | ⟨other,parsed⟩ := foldl_parsed member
  · cases old
  · exact reached.parsed_command (List.mem_filter.mp parsed).1

end NovaCache.Server
