import NovaCache.Server.HalfClose

/-! Connections that wait to be reported as readable. The reactor is edge-triggered, so one
that has nothing else to do must have been read until its socket had no more. -/
namespace NovaCache.Server
open Protocol Interaction

/-- What the last read of a connection came to. It is pending behind a report, behind bytes
that were received, and on a new connection. -/
inductive Reading
  | pending
  | stopped
  | blocked
  deriving DecidableEq, Repr

def Reading.step (fd id : Nat) (reading : Reading) : Event → Reading
  | .accepted other _ | .received other _ => if other = id then .pending else reading
  | .reported event => if event.fd = fd ∧ (event.ready.read ∨ event.hangup) then .pending else reading
  | .readBlocked other => if other = id then .blocked else reading
  | .met .readingStopped found => if found.id = id then .stopped else reading
  | _ => reading

def reading (fd id : Nat) (trace : List Event) : Reading := trace.foldl (Reading.step fd id) .pending

/-- Interest is not withheld from a connection with nothing to do, and is not left as it is
behind a read that stopped early. -/
def keepsWaking (fd id : Nat) (front : List Event) : Event → Bool
  | .met .interestWithheld found => decide (found.id = id → ¬ found.Idle)
  | .met .awaiting found => decide (found.id = id → reading fd id front ≠ .stopped)
  | _ => true

def Read (fd : Nat) (connection : Connection) (trace : List Event) : Prop :=
  connection.readClosed = true ∨ connection.closing = true ∨ reading fd connection.id trace ≠ .pending

/-- The connection was left to wait though its last read had stopped early. -/
def Missed (fd id : Nat) (trace : List Event) : Prop :=
  ∃ front found back, trace = front ++ .met .awaiting found::back ∧ found.id = id ∧ reading fd id front = .stopped

def Awake (fd : Nat) (connection : Connection) (trace : List Event) : Prop :=
  connection.readClosed = true ∨ connection.closing = true ∨ connection.interest.read = false ∨
    reading fd connection.id trace = .blocked ∨ Missed fd connection.id trace

variable {config : ServerConfig} {place later : Position} {server next : ServerState} {fd id : Nat}
  {current changed : Connection} {events trace : List Event}

theorem reading_append (fd id : Nat) (trace events : List Event) :
    reading fd id (trace ++ events) = events.foldl (Reading.step fd id) (reading fd id trace) := List.foldl_append

theorem reading_calm (calm : ∀ event ∈ events, ∀ before : Reading, before.step fd id event = before) (trace : List Event) :
    reading fd id (trace ++ events) = reading fd id trace := by
  rw [reading_append]
  exact foldl_calm calm _

/-- Steps of others leave a reading as it is, but for a report that the descriptor is readable. -/
theorem Beside.reading {event : Event} (beside : Beside later fd id event)
    (quiet : ∀ fired, event = .reported fired → fired.fd = fd → ¬ (fired.ready.read ∨ fired.hangup)) (before : Reading) :
    before.step fd id event = before := by
  cases event with
  | reported fired =>
    refine if_neg fun both => ?_
    exact quiet fired rfl both.1 both.2
  | accepted other _ | received other _ | readBlocked other =>
    refine if_neg fun same => ?_
    cases beside (congrArg some same)
  | met place found =>
    cases place with
    | readingStopped =>
      refine if_neg fun same => ?_
      cases beside (congrArg some same)
    | _ => rfl
  | _ => rfl

theorem Missed.stays (missed : Missed fd id trace) : Missed fd id (trace ++ events) := by
  obtain ⟨front,found,back,rfl,facts⟩ := missed
  exact ⟨front,found,back ++ events,by simp,facts⟩

/-- A connection is read until its end has been reached. -/
theorem Move.unread (move : Move config place server later next) (unread : place.unread = some fd) :
    later.unread = some fd ∨ next = server ∧
      ∀ connection, server.connections.lookup fd = some connection → ReadEnded connection server.trace := by
  cases move with
  | report _ settled | accept _ settled | approach _ settled => cases settled.symm.trans unread
  | read there ended =>
    cases there.symm.trans unread
    exact Or.inr ⟨rfl,ended⟩
  | _ => exact Or.inl unread

theorem ReadEnded.read (ended : ReadEnded current trace) : Read fd current trace := by
  rcases ended with closed | closing | blocked | stopped
  · exact Or.inl closed
  · exact Or.inr (Or.inl closing)
  · obtain ⟨front,rfl⟩ := List.getLast?_eq_some_iff.mp blocked
    refine Or.inr (Or.inr ?_)
    rw [reading_append]
    simp [Reading.step]
  · obtain ⟨front,rfl⟩ := List.getLast?_eq_some_iff.mp stopped
    refine Or.inr (Or.inr ?_)
    rw [reading_append]
    simp [Reading.step]

theorem Change.read {parsing : Option Nat} (change : Change parsing current events changed)
    (done : Read fd current trace) : Read fd changed (trace ++ events) := by
  cases change with
  | breaks | refuse | endInside | endIdle => exact Or.inr (Or.inl rfl)
  | endBusy => exact Or.inl rfl
  | block =>
    refine Or.inr (Or.inr ?_)
    rw [reading_append]
    simp [Reading.step]
  | note place =>
    refine done.imp_right (Or.imp_right fun fine => ?_)
    rw [reading_append]
    cases place with
    | readingStopped => simp [Reading.step]
    | _ => exact fine
  | register | send =>
    refine done.imp_right (Or.imp_right fun fine => ?_)
    rw [reading_append]
    exact fine

theorem Deed.read (deed : Deed config place server fd current later events changed) (settled : place.unread ≠ some fd)
    (done : Read fd current trace) : Read fd changed (trace ++ events) := by
  cases deed with
  | change change => exact change.read done
  | receive _ _ unread => exact absurd unread settled
  | enqueue | launch | strandEnd =>
    refine done.imp_right (Or.imp_right fun fine => ?_)
    rw [reading_append]
    exact fine
  | apply completion now =>
    have flushed := respond_flushed config completion now current
    rcases flushed.closes with ⟨closing,closed⟩ | ⟨closing,_⟩
    · rw [Read,closing,closed,respond_id,reading_calm]
      · exact done
      · refine List.forall_mem_append.mpr ⟨List.forall_mem_singleton.mpr fun _ => rfl,fun event member before => ?_⟩
        rw [overflow_own _ _ event member]
        rfl
    · exact Or.inr (Or.inl closing)

/-- Whenever a connection is not being read, its last read has come to an end. -/
theorem Reached.read (reached : Reached config place server) : ∀ fd connection, place.unread ≠ some fd →
    server.connections.lookup fd = some connection → Read fd connection server.trace := by
  induction reached with
  | start => exact fun fd connection _ found => (initial_empty found).elim
  | @next place server later next before move ih =>
    intro fd changed settled found
    by_cases unread : place.unread = some fd
    · rcases move.unread unread with still | ⟨rfl,ended⟩
      · exact absurd still settled
      · exact (ended changed found).read
    · obtain ⟨events,grown,cases⟩ := move.deed before.valid found
      rw [grown]
      rcases cases with ⟨same,beside⟩ | ⟨current,old,_,deed⟩ | ⟨now,_,_,_,unread⟩
      · refine (ih fd changed unread same).imp_right (Or.imp_right fun fine => ?_)
        rw [reading_calm fun event member => (beside event member).reading ?_]
        · exact fine
        · rintro fired rfl here readable
          exact settled ((beside _ member here).2 readable)
      · exact deed.read unread (ih fd current unread old)
      · exact absurd unread settled

/-- A connection that is left to wait has been read to the end, or its last read stopped early. -/
theorem Read.awake (done : Read fd current trace) (awaiting : Awaiting current trace) : Awake fd current trace := by
  rcases done with closed | closing | fine
  · exact Or.inl closed
  · exact Or.inr (Or.inl closing)
  · refine Or.inr (Or.inr ?_)
    cases reads : current.interest.read with
    | false => exact Or.inl rfl
    | true =>
      obtain ⟨found,last,own⟩ := awaiting reads
      obtain ⟨front,rfl⟩ := List.getLast?_eq_some_iff.mp last
      have same : reading fd current.id (front ++ [.met .awaiting found]) = reading fd current.id front :=
        reading_calm (List.forall_mem_singleton.mpr fun _ => rfl) front
      rw [same] at fine ⊢
      cases state : reading fd current.id front with
      | pending => exact absurd state fine
      | stopped => exact Or.inr (Or.inr ⟨front,found,[],rfl,own,state⟩)
      | blocked => exact Or.inr (Or.inl rfl)

theorem Reached.awake (reached : Reached config place server) : ∀ fd connection, fd ∉ place.attended →
    server.connections.lookup fd = some connection → Awake fd connection server.trace := by
  apply reached.unattended Awake
  · intro place server fd connection before settled found _ awaiting
    exact (before.read fd connection (by rw [settled]; nofun) found).awake awaiting
  · intro later fd connection trace events outside beside awake
    have calm : reading fd connection.id (trace ++ events) = reading fd connection.id trace := by
      refine reading_calm (fun event member => (beside event member).reading ?_) _
      rintro fired rfl here
      exact absurd (beside _ member here).1 outside
    rcases awake with closed | closing | silent | blocked | missed
    · exact Or.inl closed
    · exact Or.inr (Or.inl closing)
    · exact Or.inr (Or.inr (Or.inl silent))
    · exact Or.inr (Or.inr (Or.inr (Or.inl (calm.trans blocked))))
    · exact Or.inr (Or.inr (Or.inr (Or.inr missed.stays)))

/-- Between any two iterations of `run`: an open connection that has nothing else to do has
read interest registered, and its last read since it was reported has blocked, if interest
is never withheld from it while it has nothing to do, nor left registered behind a read that
stopped early. -/
theorem no_connection_stranded (config : ServerConfig) (room : 0 < config.maxOutputBufferBytes)
    (rounds : List (List Input)) (server : ServerState) (ran : iterations config rounds = some server) (fd : Nat)
    (connection : Connection) (found : server.connections.lookup fd = some connection)
    (wakes : passes (keepsWaking fd connection.id) [] server.trace = true) (reads : connection.readClosed = false)
    (active : connection.closing = false) (waiting : connection.inflight = 0) (sent : connection.output = []) :
    connection.interest.read = true ∧ reading fd connection.id server.trace = .blocked := by
  have at_ := iterations_at ran
  have outside : fd ∉ (Position.resting ∅).attended := Set.notMem_empty _
  have interest : connection.interest.read = true := by
    rcases (at_.reached.finished fd connection outside found).waits with closed | closing | read | full | withheld
    · cases reads.symm.trans closed
    · cases active.symm.trans closing
    · exact read
    · rw [sent] at full
      exact absurd full (Nat.not_le_of_gt room)
    · obtain ⟨met,member,own,output,inflight⟩ := withheld
      obtain ⟨front,back,split⟩ := List.append_of_mem member
      rw [split] at wakes
      exact absurd ⟨output.trans sent,inflight.trans waiting⟩ (of_decide_eq_true (passes_at wakes) own)
  refine ⟨interest,?_⟩
  rcases at_.reached.awake fd connection outside found with closed | closing | silent | blocked | missed
  · cases reads.symm.trans closed
  · cases active.symm.trans closing
  · cases interest.symm.trans silent
  · exact blocked
  · obtain ⟨front,met,back,split,own,stopped⟩ := missed
    rw [split] at wakes
    exact absurd stopped (of_decide_eq_true (passes_at wakes) own)

/-- The command of the connection itself fills the worker queue for a while. -/
theorem no_connection_stranded_ping : ∃ server connection,
    iterations (listening 1) [saturating ++ [.blocked,.others [],.others []]] = some server ∧
    server.connections.lookup 7 = some connection ∧ server.trace.any Event.saturates = true ∧
    connection.interest.read = true ∧ reading 7 connection.id server.trace = .blocked := by
  obtain ⟨server,connection,ran,found,passed⟩ := @observe_true (listening 1) 7
    [saturating ++ [.blocked,.others [],.others []]]
    (fun server connection => decide (server.trace.any Event.saturates = true ∧
      passes (keepsWaking 7 connection.id) [] server.trace = true ∧ connection.readClosed = false ∧
      connection.closing = false ∧ connection.inflight = 0 ∧ connection.output = []))
    (by decide +kernel)
  obtain ⟨stopped,wakes,reads,active,waiting,sent⟩ := of_decide_eq_true passed
  exact ⟨server,connection,ran,found,stopped,no_connection_stranded (listening 1) (by decide) _ server ran 7 connection
    found wakes reads active waiting sent⟩

/-- A second connection is accepted while the command of the first fills the worker queue. -/
def acceptedFull : List Input :=
  accepting 7 ++ [.others [],.received ping,.clock 0,.others [],.others [],.others [],.others [],.others [],.others [],
    .succeeded,.others [],.accepted 8,.succeeded,.clock 0,.succeeded,.others [],.others [],.others [],.succeeded,
    .others [],.blocked,.others [.take,.finish 0 pong],.clock 0,.sent 7,.clock 0,.others [],.succeeded,.others [],
    .blocked,.others [],.others []]

/-- A worker takes the command between the end of the read and the registration of interest. -/
def takenBetween : List Input :=
  accepting 7 ++ [.others [],.received ping,.clock 0,.others [],.others [],.others [],.others [],.others [],
    .others [.take],.others [],.blocked,.others [.finish 0 pong],.clock 0,.sent 7,.clock 0,.others [],.others []]

/-- The queue is empty again and nobody will wake the connection: its interest is not
registered, or it was not read to the end. -/
theorem connection_stranded :
    (∃ server connection, iterations (listening 1) [acceptedFull] = some server ∧
      server.connections.lookup 8 = some connection ∧ connection.readClosed = false ∧ connection.closing = false ∧
      connection.Idle ∧ server.pool.queuedJobs = 0 ∧ connection.interest.read = false) ∧
    ∃ server connection, iterations (listening 1) [takenBetween] = some server ∧
      server.connections.lookup 7 = some connection ∧ connection.readClosed = false ∧ connection.closing = false ∧
      connection.Idle ∧ server.pool.queuedJobs = 0 ∧ reading 7 connection.id server.trace = .stopped := by
  constructor
  · obtain ⟨server,connection,ran,found,passed⟩ := @observe_true (listening 1) 8 [acceptedFull]
      (fun server connection => decide (connection.readClosed = false ∧ connection.closing = false ∧ connection.Idle ∧
        server.pool.queuedJobs = 0 ∧ connection.interest.read = false)) (by decide +kernel)
    exact ⟨server,connection,ran,found,of_decide_eq_true passed⟩
  · obtain ⟨server,connection,ran,found,passed⟩ := @observe_true (listening 1) 7 [takenBetween]
      (fun server connection => decide (connection.readClosed = false ∧ connection.closing = false ∧ connection.Idle ∧
        server.pool.queuedJobs = 0 ∧ reading 7 connection.id server.trace = .stopped)) (by decide +kernel)
    exact ⟨server,connection,ran,found,of_decide_eq_true passed⟩

end NovaCache.Server
