import NovaCache.Server.Replies

/-! The strand of a connection runs one command at a time. What a command has come to is
read off the events of its connection, and every step moves it on in one order only. -/
namespace NovaCache.Server
open Protocol Interaction

/-- What the latest command of a strand has come to. `launched` is the time in which
`launch_strand` hands it over, `applied` the time in which `apply_completion` has its reply
and has not gone on with the strand. -/
inductive Phase
  | idle
  | launched
  | submitted
  | running
  | inline
  | completed
  | applied
  deriving DecidableEq, Repr

/-- In the phase `idle` the sequence number is that of the next command. -/
structure Strand where
  phase : Phase
  sequence : Nat
  deriving DecidableEq, Repr

namespace Strand

def first (strand : Strand) : Nat := if strand.phase = .idle then strand.sequence else strand.sequence + 1

/-- Whether the connection still waits for the reply. -/
def waiting (strand : Strand) : Nat := if strand.phase = .idle ∨ strand.phase = .applied then 0 else 1

def share (strand : Strand) (phase : Phase) : List Nat := if strand.phase = phase then [strand.sequence] else []

/-- Events in another order than that of a strand are refused. -/
def step (strand : Strand) : Event → Option Strand
  | .launched _ sequence =>
    if (strand.phase = .idle ∨ strand.phase = .applied) ∧ sequence = strand.first then some ⟨.launched,sequence⟩ else none
  | .submitted _ sequence => if strand = ⟨.launched,sequence⟩ then some ⟨.submitted,sequence⟩ else none
  | .started _ sequence =>
    if strand = ⟨.submitted,sequence⟩ then some ⟨.running,sequence⟩
    else if strand = ⟨.launched,sequence⟩ then some ⟨.inline,sequence⟩
    else none
  | .executed _ sequence _ _ =>
    if strand = ⟨.running,sequence⟩ ∨ strand = ⟨.inline,sequence⟩ then some ⟨.completed,sequence⟩ else none
  | .applied _ sequence => if strand = ⟨.completed,sequence⟩ then some ⟨.applied,sequence⟩ else none
  | .strandEnded _ => if strand.phase = .applied then some ⟨.idle,strand.sequence + 1⟩ else none
  | _ => some strand

end Strand

def strand (id : Nat) (trace : List Event) : Option Strand := (history id trace).foldlM Strand.step ⟨.idle,0⟩

theorem strand_append (id : Nat) (trace events : List Event) :
    strand id (trace ++ events) = (strand id trace).bind fun strand => (history id events).foldlM Strand.step strand := by
  rw [strand,history,List.filter_append,List.foldlM_append]
  rfl

theorem strand_other {id : Nat} {trace events : List Event} (others : ∀ event ∈ events, event.connection ≠ some id) :
    strand id (trace ++ events) = strand id trace := by
  have none : history id events = [] := List.filter_eq_nil_iff.mpr fun event member => by simpa using others event member
  rw [strand_append,none]
  cases strand id trace <;> rfl

theorem strand_own {id : Nat} {trace : List Event} {event : Event} {before after : Strand}
    (legal : strand id trace = some before) (own : event.connection = some id) (step : before.step event = some after) :
    strand id (trace ++ [event]) = some after := by
  have all : history id [event] = [event] := List.filter_eq_self.mpr fun item member => by simpa [List.mem_singleton.mp member] using own
  rw [strand_append,legal,all]
  change (before.step event >>= pure) = some after
  rw [step]
  rfl

theorem strand_neutral {id : Nat} {trace events : List Event}
    (neutral : ∀ event ∈ events, ∀ strand : Strand, strand.step event = some strand) :
    strand id (trace ++ events) = strand id trace := by
  rw [strand_append]
  cases strand id trace with
  | none => rfl
  | some before =>
    have kept : ∀ event ∈ history id events, ∀ strand : Strand, strand.step event = some strand :=
      fun event member => neutral event (List.mem_filter.mp member).1
    change (history id events).foldlM Strand.step before = some before
    generalize history id events = own at kept
    induction own with
    | nil => rfl
    | cons event own ih =>
      obtain ⟨head,tail⟩ := List.forall_mem_cons.mp kept
      rw [List.foldlM_cons,head]
      exact ih tail

def sequencesOf (id : Nat) (jobs : List Job) : List Nat :=
  (jobs.filter fun job => job.connectionId = id).map Job.sequence

def Hand.launched : Hand → List Job
  | .launching job => [job]
  | _ => []

def Hand.inline : Hand → List Job
  | .running job => [job]
  | _ => []

/-- An open connection follows its strand. -/
structure Steady (strand : Strand) (connection : Connection) (applying : Prop) (completed : List Nat) : Prop where
  running : connection.strandRunning = true ↔ strand.phase ≠ .idle
  queue : connection.commandQueue.map QueuedCommand.sequence = List.range' strand.first connection.commandQueue.length
  requests : connection.nextRequestSeq = strand.first + connection.commandQueue.length
  inflight : connection.inflight = connection.commandQueue.length + strand.waiting
  completed : completed = strand.share .completed
  applying : strand.phase = .applied ↔ applying

def completedOf (server : ServerState) (id : Nat) : List Nat := (completionsOf server id).map Completion.sequence

/-- The threads hold nothing of a connection but the command of its strand. The reply to a
connection that is closed may be gone. -/
structure Follows (place : Position) (server : ServerState) (id : Nat) (strand : Strand) : Prop where
  legal : Server.strand id server.trace = some strand
  launched : sequencesOf id place.hand.launched = strand.share .launched
  inline : sequencesOf id place.hand.inline = strand.share .inline
  queued : sequencesOf id server.pool.jobs = strand.share .submitted
  running : sequencesOf id server.pool.running = strand.share .running
  completed : (completedOf server id).Sublist (strand.share .completed)
  fresh : server.nextConnectionId ≤ id → strand = ⟨.idle,0⟩
  steady : ∀ fd connection, server.connections.lookup fd = some connection → connection.id = id →
    Steady strand connection (place.applying = some fd) (completedOf server id)

structure Ordered (place : Position) (server : ServerState) : Prop where
  strands : ∀ id, ∃ strand, Follows place server id strand
  applying : ∀ fd, place.applying = some fd → ∃ connection, server.connections.lookup fd = some connection

variable {config : ServerConfig} {place later : Position} {server next : ServerState} {fd id : Nat} {job : Job}
  {current changed : Connection} {events : List Event} {before : Wire} {parsing : Option Nat}
  {jobs : List Job} {moved : Strand}

theorem sequencesOf_append (id : Nat) (one two : List Job) :
    sequencesOf id (one ++ two) = sequencesOf id one ++ sequencesOf id two := by
  rw [sequencesOf,List.filter_append,List.map_append]
  rfl

theorem sequencesOf_cons (id : Nat) (job : Job) (jobs : List Job) : sequencesOf id (job::jobs) =
    if job.connectionId = id then job.sequence::sequencesOf id jobs else sequencesOf id jobs := by
  rw [sequencesOf,List.filter_cons]
  simp only [decide_eq_true_eq]
  split <;> rfl

theorem sequencesOf_single (id : Nat) (job : Job) :
    sequencesOf id [job] = if job.connectionId = id then [job.sequence] else [] :=
  sequencesOf_cons id job []

theorem cons_share {sequence : Nat} {rest : List Nat} {phase : Phase} (equal : sequence::rest = moved.share phase) :
    moved = ⟨phase,sequence⟩ ∧ rest = [] := by
  obtain ⟨found,number⟩ := moved
  unfold Strand.share at equal
  split at equal
  · next same =>
    cases same
    cases equal
    exact ⟨rfl,rfl⟩
  · cases equal

/-- Nothing that the strand of a connection depends on has changed. -/
structure Unmoved (place : Position) (server : ServerState) (later : Position) (next : ServerState) (id : Nat) : Prop where
  strand : Server.strand id next.trace = Server.strand id server.trace
  launched : sequencesOf id later.hand.launched = sequencesOf id place.hand.launched
  inline : sequencesOf id later.hand.inline = sequencesOf id place.hand.inline
  queued : sequencesOf id next.pool.jobs = sequencesOf id server.pool.jobs
  running : sequencesOf id next.pool.running = sequencesOf id server.pool.running
  completed : completedOf next id = completedOf server id
  count : server.nextConnectionId ≤ next.nextConnectionId
  connections : ∀ fd connection, next.connections.lookup fd = some connection → connection.id = id →
    ∃ old, server.connections.lookup fd = some old ∧ old.id = id ∧ connection.strandRunning = old.strandRunning ∧
      connection.commandQueue = old.commandQueue ∧ connection.nextRequestSeq = old.nextRequestSeq ∧
      connection.inflight = old.inflight ∧ (later.applying = some fd ↔ place.applying = some fd)

theorem Follows.unmoved (follows : Follows place server id moved) (unmoved : Unmoved place server later next id) :
    Follows later next id moved where
  legal := unmoved.strand.trans follows.legal
  launched := unmoved.launched.trans follows.launched
  inline := unmoved.inline.trans follows.inline
  queued := unmoved.queued.trans follows.queued
  running := unmoved.running.trans follows.running
  completed := unmoved.completed ▸ follows.completed
  fresh := fun bound => follows.fresh (le_trans unmoved.count bound)
  steady := by
    intro fd connection found own
    obtain ⟨old,lookup,same,running,queue,requests,inflight,applying⟩ := unmoved.connections fd connection found own
    have steady := follows.steady fd old lookup same
    rw [unmoved.completed]
    refine ⟨?_,?_,?_,?_,steady.completed,steady.applying.trans applying.symm⟩
    · rw [running]
      exact steady.running
    · rw [queue]
      exact steady.queue
    · rw [queue,requests]
      exact steady.requests
    · rw [queue,inflight]
      exact steady.inflight

theorem perm_share {phase : Phase} {sequences : List Nat} (moved' : sequences.Perm (moved.share phase)) :
    sequences = moved.share phase := by
  unfold Strand.share at *
  split
  · next here =>
    rw [if_pos here] at moved'
    exact List.perm_singleton.mp moved'
  · next there =>
    rw [if_neg there] at moved'
    exact List.perm_nil.mp moved'

/-- A step of one connection that leaves its commands alone. -/
theorem unmoved_put (hand : later.hand = place.hand) (applying : later.applying = place.applying)
    (found : server.connections.lookup fd = some current) (same : changed.id = current.id)
    (running : changed.strandRunning = current.strandRunning) (queue : changed.commandQueue = current.commandQueue)
    (requests : changed.nextRequestSeq = current.nextRequestSeq) (inflight : changed.inflight = current.inflight)
    (neutral : ∀ event ∈ events, ∀ strand : Strand, strand.step event = some strand) :
    Unmoved place server later (server.put fd changed events) id where
  strand := strand_neutral neutral
  launched := by rw [hand]
  inline := by rw [hand]
  queued := rfl
  running := rfl
  completed := rfl
  count := le_refl _
  connections := by
    intro other connection at_ own
    rw [ServerState.put,lookup_insert] at at_
    split at at_
    · next here =>
      cases at_
      exact ⟨current,here ▸ found,same.symm.trans own,running,queue,requests,inflight,by rw [applying]⟩
    · exact ⟨connection,at_,own,rfl,rfl,rfl,rfl,by rw [applying]⟩

/-- A step of the threads that only touches other connections. -/
theorem unmoved_apart (connections : next.connections = server.connections) (applying : later.applying = place.applying)
    (count : next.nextConnectionId = server.nextConnectionId)
    (trace : Server.strand id next.trace = Server.strand id server.trace)
    (launched : sequencesOf id later.hand.launched = sequencesOf id place.hand.launched)
    (inline : sequencesOf id later.hand.inline = sequencesOf id place.hand.inline)
    (queued : sequencesOf id next.pool.jobs = sequencesOf id server.pool.jobs)
    (running : sequencesOf id next.pool.running = sequencesOf id server.pool.running)
    (completed : completedOf next id = completedOf server id) : Unmoved place server later next id := by
  refine ⟨trace,launched,inline,queued,running,completed,le_of_eq count.symm,fun fd connection found own => ?_⟩
  rw [connections] at found
  exact ⟨connection,found,own,rfl,rfl,rfl,rfl,by rw [applying]⟩

def Phase.busy (phase : Phase) : Prop := phase ≠ .idle ∧ phase ≠ .applied

instance (phase : Phase) : Decidable phase.busy := inferInstanceAs (Decidable (_ ∧ _))

/-- The command of a strand goes on, and its connection does not notice. -/
theorem Steady.advance {one two : Phase} {sequence : Nat} {applying : Prop} {completed now : List Nat}
    (steady : Steady ⟨one,sequence⟩ current applying completed) (busy : one.busy) (still : two.busy)
    (reply : now = (Strand.mk two sequence).share .completed) : Steady ⟨two,sequence⟩ current applying now := by
  have first : (Strand.mk two sequence).first = (Strand.mk one sequence).first := by
    rw [Strand.first,Strand.first,if_neg busy.1,if_neg still.1]
  have waiting : (Strand.mk two sequence).waiting = (Strand.mk one sequence).waiting := by
    rw [Strand.waiting,Strand.waiting,if_neg (not_or.mpr busy),if_neg (not_or.mpr still)]
  refine ⟨?_,?_,?_,?_,reply,?_⟩
  · exact steady.running.trans (iff_of_true busy.1 still.1)
  · rw [first]
    exact steady.queue
  · rw [first]
    exact steady.requests
  · rw [waiting]
    exact steady.inflight
  · exact (iff_of_false still.2 busy.2).trans steady.applying

/-- A job of a connection goes on to another phase, without a reply yet. -/
theorem Follows.advance {one two : Phase} {sequence : Nat} (event : Event)
    (follows : Follows place server id ⟨one,sequence⟩) (busy : one.busy) (still : two.busy)
    (unanswered : one ≠ .completed ∧ two ≠ .completed) (connections : next.connections = server.connections)
    (applying : later.applying = place.applying) (count : next.nextConnectionId = server.nextConnectionId)
    (trace : next.trace = server.trace ++ [event]) (own : event.connection = some id)
    (step : (Strand.mk one sequence).step event = some ⟨two,sequence⟩)
    (completed : completedOf next id = completedOf server id)
    (launched : sequencesOf id later.hand.launched = (Strand.mk two sequence).share .launched)
    (inline : sequencesOf id later.hand.inline = (Strand.mk two sequence).share .inline)
    (queued : sequencesOf id next.pool.jobs = (Strand.mk two sequence).share .submitted)
    (running : sequencesOf id next.pool.running = (Strand.mk two sequence).share .running) :
    Follows later next id ⟨two,sequence⟩ := by
  have none : (Strand.mk two sequence).share .completed = (Strand.mk one sequence).share .completed := by
    rw [Strand.share,Strand.share,if_neg unanswered.1,if_neg unanswered.2]
  refine ⟨trace ▸ strand_own follows.legal own step,launched,inline,queued,running,?_,fun bound => ?_,?_⟩
  · rw [completed,none]
    exact follows.completed
  · rw [count] at bound
    exact absurd (congrArg Strand.phase (follows.fresh bound)) busy.1
  · intro fd connection found same
    rw [connections] at found
    have steady := follows.steady fd connection found same
    rw [applying,completed]
    exact steady.advance busy still (steady.completed.trans none.symm)

theorem Follows.take (follows : Follows place server id moved) : ∃ strand, Follows place (take server) id strand := by
  unfold Server.take
  split
  · exact ⟨moved,follows⟩
  · next job rest queue =>
    split
    · exact ⟨moved,follows⟩
    · have queued := follows.queued
      rw [queue,sequencesOf_cons] at queued
      split at queued
      · next own =>
        obtain ⟨rfl,empty⟩ := cons_share queued
        refine ⟨⟨.running,job.sequence⟩,follows.advance (.started job.connectionId job.sequence) (by decide) (by decide)
          (by decide) rfl rfl rfl rfl (congrArg some own) (if_pos rfl) rfl follows.launched follows.inline empty ?_⟩
        change sequencesOf id (server.pool.running ++ [job]) = [job.sequence]
        rw [sequencesOf_append,follows.running,sequencesOf_single,if_pos own]
        rfl
      · next other =>
        refine ⟨moved,follows.unmoved (unmoved_apart rfl rfl rfl ?_ rfl rfl (queued.trans follows.queued.symm) ?_ rfl)⟩
        · exact strand_other (by simpa [Event.connection] using other)
        · change sequencesOf id (server.pool.running ++ [job]) = _
          rw [sequencesOf_append,sequencesOf_single,if_neg other,List.append_nil]

theorem completedOf_added (added : Completion) (completions : next.completions = server.completions ++ [added])
    (draining : next.draining = server.draining) :
    completedOf next id = if added.connectionId = id
      then ((server.completions.filter fun completion => completion.connectionId = id).map Completion.sequence) ++
        added.sequence::((server.draining.filter fun completion => completion.connectionId = id).map Completion.sequence)
      else completedOf server id := by
  rw [completedOf,completionsOf,completions,draining,List.append_assoc,List.filter_append,List.singleton_append,
    List.filter_cons,List.map_append]
  simp only [decide_eq_true_eq]
  split
  · rfl
  · rw [completedOf,completionsOf,List.filter_append,List.map_append]

theorem completedOf_complete {reply : RespValue} {payload : Bytes} (other : job.connectionId ≠ id) :
    completedOf (Server.complete job reply payload server) id = completedOf server id := by
  refine Eq.trans (completedOf_added ⟨job.connectionId,job.sequence,payload⟩ ?_ ?_) (if_neg other)
  · rfl
  · rfl

/-- A handler has returned and its reply waits to be applied. -/
theorem Follows.answer {phase : Phase} {reply : RespValue} {payload : Bytes}
    (follows : Follows place server job.connectionId ⟨phase,job.sequence⟩) (executing : phase = .running ∨ phase = .inline)
    (connections : next.connections = server.connections) (applying : later.applying = place.applying)
    (count : next.nextConnectionId = server.nextConnectionId)
    (trace : next.trace = server.trace ++ [.executed job.connectionId job.sequence job.request reply])
    (completions : next.completions = server.completions ++ [⟨job.connectionId,job.sequence,payload⟩])
    (draining : next.draining = server.draining)
    (launched : sequencesOf job.connectionId later.hand.launched = [])
    (inline : sequencesOf job.connectionId later.hand.inline = [])
    (queued : sequencesOf job.connectionId next.pool.jobs = [])
    (running : sequencesOf job.connectionId next.pool.running = []) :
    Follows later next job.connectionId ⟨.completed,job.sequence⟩ := by
  have busy : phase.busy := by rcases executing with rfl | rfl <;> decide
  have unanswered : (Strand.mk phase job.sequence).share .completed = [] := by rcases executing with rfl | rfl <;> rfl
  have none : completedOf server job.connectionId = [] := List.sublist_nil.mp (unanswered ▸ follows.completed)
  have one : completedOf next job.connectionId = [job.sequence] := by
    rw [completedOf,completionsOf,List.filter_append,List.map_append,List.append_eq_nil_iff] at none
    rw [completedOf_added _ completions draining,if_pos rfl,none.1,none.2]
    rfl
  refine ⟨?_,launched,inline,queued,running,?_,fun bound => ?_,?_⟩
  · rw [trace]
    refine strand_own follows.legal rfl (if_pos ?_)
    rcases executing with rfl | rfl
    · exact Or.inl rfl
    · exact Or.inr rfl
  · rw [one]
    exact List.Sublist.refl _
  · rw [count] at bound
    exact absurd (congrArg Strand.phase (follows.fresh bound)) busy.1
  · intro fd connection found same
    rw [connections] at found
    rw [applying,one]
    exact (follows.steady fd connection found same).advance busy (by decide) rfl

theorem Follows.finish {index : Nat} {reply : RespValue} {payload : Bytes} (follows : Follows place server id moved)
    (found : server.pool.running[index]? = some job) :
    ∃ strand, Follows place (Server.complete job reply payload {server with pool := server.pool.release index}) id
      strand := by
  have left : (sequencesOf id (job::server.pool.running.eraseIdx index)).Perm (moved.share .running) := by
    rw [← follows.running]
    exact ((eraseIdx_perm found).symm.filter _).map _
  have running := perm_share left
  rw [sequencesOf_cons] at running
  split at running
  · next own =>
    subst own
    obtain ⟨rfl,empty⟩ := cons_share running
    exact ⟨_,follows.answer (Or.inl rfl) rfl rfl rfl rfl rfl rfl follows.launched follows.inline follows.queued empty⟩
  · next other =>
    refine ⟨moved,follows.unmoved (unmoved_apart rfl rfl rfl ?_ rfl rfl rfl (running.trans follows.running.symm) ?_)⟩
    · exact strand_other (by simpa [Event.connection,Server.complete] using other)
    · exact completedOf_complete other

/-- The jobs in hand of a connection are those of its strand. -/
theorem Follows.launching (follows : Follows place server job.connectionId moved) (hand : place.hand = .launching job) :
    moved = ⟨.launched,job.sequence⟩ := by
  have launched := follows.launched
  rw [hand,Hand.launched,sequencesOf_single,if_pos rfl] at launched
  exact (cons_share launched).1

theorem Follows.submit (follows : Follows place server id moved) (hand : place.hand = .launching job) :
    ∃ strand, Follows {place with hand := .empty} {server with
      pool := {server.pool with jobs := server.pool.jobs ++ [job]}
      trace := server.trace ++ [.submitted job.connectionId job.sequence]} id strand := by
  by_cases own : job.connectionId = id
  · subst own
    obtain rfl := follows.launching hand
    refine ⟨⟨.submitted,job.sequence⟩,follows.advance (.submitted job.connectionId job.sequence) (by decide) (by decide)
      (by decide) rfl rfl rfl rfl rfl (if_pos rfl) rfl rfl rfl ?_ follows.running⟩
    change sequencesOf job.connectionId (server.pool.jobs ++ [job]) = [job.sequence]
    rw [sequencesOf_append,follows.queued,sequencesOf_single,if_pos rfl]
    rfl
  · refine ⟨moved,follows.unmoved (unmoved_apart rfl rfl rfl ?_ ?_ ?_ ?_ rfl rfl)⟩
    · exact strand_other (by simpa [Event.connection] using own)
    · rw [hand]
      exact ((sequencesOf_single id job).trans (if_neg own)).symm
    · rw [hand]
      rfl
    · change sequencesOf id (server.pool.jobs ++ [job]) = _
      rw [sequencesOf_append,sequencesOf_single,if_neg own,List.append_nil]

theorem Follows.start (follows : Follows place server id moved) (hand : place.hand = .launching job) :
    ∃ strand, Follows {place with hand := .running job}
      {server with trace := server.trace ++ [.started job.connectionId job.sequence]} id strand := by
  by_cases own : job.connectionId = id
  · subst own
    obtain rfl := follows.launching hand
    refine ⟨⟨.inline,job.sequence⟩,follows.advance (.started job.connectionId job.sequence) (by decide) (by decide)
      (by decide) rfl rfl rfl rfl rfl ?_ rfl rfl ?_ follows.queued follows.running⟩
    · simp [Strand.step]
    · exact (sequencesOf_single _ _).trans (if_pos rfl)
  · refine ⟨moved,follows.unmoved (unmoved_apart rfl rfl rfl ?_ ?_ ?_ rfl rfl rfl)⟩
    · exact strand_other (by simpa [Event.connection] using own)
    · rw [hand]
      exact ((sequencesOf_single id job).trans (if_neg own)).symm
    · rw [hand]
      exact (sequencesOf_single id job).trans (if_neg own)

theorem Follows.complete {reply : RespValue} {payload : Bytes} (follows : Follows place server id moved)
    (hand : place.hand = .running job) :
    ∃ strand, Follows {place with hand := .empty} (Server.complete job reply payload server) id strand := by
  by_cases own : job.connectionId = id
  · subst own
    have inline := follows.inline
    rw [hand,Hand.inline,sequencesOf_single,if_pos rfl] at inline
    obtain ⟨rfl,_⟩ := cons_share inline
    exact ⟨_,follows.answer (Or.inr rfl) rfl rfl rfl rfl rfl rfl rfl rfl follows.queued follows.running⟩
  · refine ⟨moved,follows.unmoved (unmoved_apart rfl rfl rfl ?_ ?_ ?_ rfl rfl ?_)⟩
    · exact strand_other (by simpa [Event.connection,Server.complete] using own)
    · rw [hand]
      rfl
    · rw [hand]
      exact ((sequencesOf_single id job).trans (if_neg own)).symm
    · exact completedOf_complete own

theorem steady_insert {held : List Job} {applying : Option Nat} {completed : List Nat} (valid : Valid config held server)
    (found : server.connections.lookup fd = some current) (steady : Steady moved changed (applying = some fd) completed)
    (other : Nat) (connection : Connection) (at_ : (server.connections.insert fd changed).lookup other = some connection)
    (own : connection.id = current.id) : Steady moved connection (applying = some other) completed := by
  rw [lookup_insert] at at_
  split at at_
  · next here =>
    cases at_
    rwa [here]
  · next there => exact absurd (valid.unique _ _ _ _ at_ found own) there

/-- A step of one connection is none of another. -/
theorem unmoved_beside (other : id ≠ current.id) (connections : next.connections = server.connections.insert fd changed)
    (same : changed.id = current.id)
    (count : next.nextConnectionId = server.nextConnectionId) (pool : next.pool = server.pool)
    (trace : next.trace = server.trace ++ events) (own : ∀ event ∈ events, event.connection = some current.id)
    (completed : completedOf next id = completedOf server id)
    (launched : sequencesOf id later.hand.launched = sequencesOf id place.hand.launched)
    (inline : sequencesOf id later.hand.inline = sequencesOf id place.hand.inline)
    (applying : ∀ other, other ≠ fd → (later.applying = some other ↔ place.applying = some other)) :
    Unmoved place server later next id := by
  refine ⟨?_,launched,inline,by rw [pool],by rw [pool],completed,le_of_eq count.symm,fun beside connection found mine => ?_⟩
  · rw [trace]
    refine strand_other fun event member equal => other ?_
    exact Option.some.inj (equal.symm.trans (own event member))
  · rw [connections,lookup_insert] at found
    split at found
    · cases found
      exact absurd (mine.symm.trans same) other
    · next there => exact ⟨connection,found,mine,rfl,rfl,rfl,rfl,applying beside there⟩

theorem Follows.opened (follows : Follows place server current.id moved)
    (found : server.connections.lookup fd = some current) :
    Steady moved current (place.applying = some fd) (completedOf server current.id) :=
  follows.steady fd current found rfl

theorem Follows.launch {held : List Job} {item : QueuedCommand} {rest : List QueuedCommand}
    (follows : Follows place server id moved) (valid : Valid config held server)
    (found : server.connections.lookup fd = some current) (free : place.hand = .empty)
    (ready : place.applying = none ∧ current.strandRunning = false ∨ place.applying = some fd)
    (queue : current.commandQueue = item::rest) :
    ∃ strand, Follows {place with
        hand := .launching ⟨current.id,item.sequence,item.request⟩
        applying := none}
      (server.put fd (current.launch rest) [.launched current.id item.sequence]) id strand := by
  by_cases own : id = current.id
  · subst own
    have steady := follows.opened found
    have paused : moved.phase = .idle ∨ moved.phase = .applied := by
      rcases ready with ⟨_,stopped⟩ | applying
      · refine Or.inl (not_not.mp fun busy => ?_)
        rw [steady.running.mpr busy] at stopped
        cases stopped
      · exact Or.inr (steady.applying.mpr applying)
    have numbers := steady.queue
    rw [queue,List.map_cons,List.length_cons,List.range'_succ,List.cons.injEq] at numbers
    obtain ⟨number,numbers⟩ := numbers
    have apart : ∀ phase, phase ≠ .idle → phase ≠ .applied → moved.share phase = [] := by
      intro phase idle applied
      refine if_neg fun same => ?_
      rcases paused with here | here
      · exact idle (same.symm.trans here)
      · exact applied (same.symm.trans here)
    refine ⟨⟨.launched,item.sequence⟩,strand_own follows.legal rfl (if_pos ⟨paused,number⟩),?_,rfl,?_,?_,?_,?_,?_⟩
    · exact (sequencesOf_single _ _).trans (if_pos rfl)
    · exact follows.queued.trans (apart _ (by decide) (by decide))
    · exact follows.running.trans (apart _ (by decide) (by decide))
    · have completed := follows.completed
      rwa [apart _ (by decide) (by decide)] at completed
    · exact fun bound => absurd bound (Nat.not_le_of_lt (valid.below fd current found))
    · refine steady_insert valid found ⟨?_,?_,?_,?_,?_,?_⟩
      · exact iff_of_true rfl (by simp)
      · have first : (Strand.mk .launched item.sequence).first = item.sequence + 1 := rfl
        rw [first,number]
        exact numbers
      · have requests := steady.requests
        rw [queue,List.length_cons] at requests
        change current.nextRequestSeq = item.sequence + 1 + rest.length
        omega
      · have inflight := steady.inflight
        have none : moved.waiting = 0 := if_pos paused
        rw [queue,List.length_cons,none] at inflight
        exact inflight
      · exact steady.completed.trans (apart _ (by decide) (by decide))
      · exact iff_of_false (by simp) (by simp)
  · refine ⟨moved,follows.unmoved (unmoved_beside own rfl rfl rfl rfl rfl (by simp [Event.connection]) rfl ?_ ?_ ?_)⟩
    · rw [free]
      exact (sequencesOf_single _ _).trans (if_neg (Ne.symm own))
    · rw [free]
      rfl
    · intro other there
      rcases ready with ⟨none,_⟩ | applying
      · rw [none]
      · rw [applying]
        simp [Ne.symm there]

theorem Follows.strandEnd {held : List Job} (follows : Follows place server id moved) (valid : Valid config held server)
    (found : server.connections.lookup fd = some current) (applying : place.applying = some fd)
    (queue : current.commandQueue = []) :
    ∃ strand, Follows {place with applying := none}
      (server.put fd {current with strandRunning := false} [.strandEnded current.id]) id strand := by
  by_cases own : id = current.id
  · subst own
    have steady := follows.opened found
    obtain ⟨phase,sequence⟩ := moved
    obtain rfl : phase = .applied := steady.applying.mpr applying
    refine ⟨⟨.idle,sequence + 1⟩,strand_own follows.legal rfl rfl,follows.launched,follows.inline,follows.queued,
      follows.running,follows.completed,fun bound => absurd bound (Nat.not_le_of_lt (valid.below fd current found)),?_⟩
    refine steady_insert valid found ⟨?_,?_,?_,?_,steady.completed,?_⟩
    · exact iff_of_false (by simp) (by simp)
    · rw [queue]
      rfl
    · exact steady.requests
    · exact steady.inflight
    · exact iff_of_false (by simp) (by simp)
  · refine ⟨moved,follows.unmoved (unmoved_beside own rfl rfl rfl rfl rfl (by simp [Event.connection]) rfl rfl rfl ?_)⟩
    intro other there
    rw [applying]
    simp [Ne.symm there]

theorem Follows.enqueue {held : List Job} {parser : Parser} {request : RespValue} (follows : Follows place server id moved)
    (valid : Valid config held server) (found : server.connections.lookup fd = some current) :
    ∃ strand, Follows place (server.put fd (current.enqueue parser request) [.parsed current.id request]) id strand := by
  have neutral : ∀ event ∈ [Event.parsed current.id request], ∀ strand : Strand, strand.step event = some strand :=
    List.forall_mem_singleton.mpr fun _ => rfl
  by_cases own : id = current.id
  · subst own
    have steady := follows.opened found
    refine ⟨moved,(strand_neutral neutral).trans follows.legal,follows.launched,follows.inline,follows.queued,
      follows.running,follows.completed,follows.fresh,?_⟩
    refine steady_insert valid found ⟨steady.running,?_,?_,?_,steady.completed,steady.applying⟩
    · change (current.commandQueue ++ [QueuedCommand.mk current.nextRequestSeq request]).map QueuedCommand.sequence =
        List.range' moved.first (current.commandQueue ++ [QueuedCommand.mk current.nextRequestSeq request]).length
      rw [List.map_append,steady.queue,List.length_append,List.length_singleton,List.range'_concat,Nat.one_mul,
        ← steady.requests]
      rfl
    · change current.nextRequestSeq + 1 = moved.first + (current.commandQueue ++ [_]).length
      rw [List.length_append,List.length_singleton,steady.requests,Nat.add_assoc]
    · change current.inflight + 1 = (current.commandQueue ++ [_]).length + moved.waiting
      rw [List.length_append,List.length_singleton,steady.inflight]
      omega
  · exact ⟨moved,follows.unmoved (unmoved_beside own rfl rfl rfl rfl rfl (by simp [Event.connection]) rfl rfl rfl
      fun _ _ => Iff.rfl)⟩

theorem append_share {sequence : Nat} {one two : List Nat} {phase : Phase}
    (equal : one ++ sequence::two = moved.share phase) : moved = ⟨phase,sequence⟩ ∧ one = [] ∧ two = [] := by
  cases one with
  | nil =>
    obtain ⟨same,rest⟩ := cons_share equal
    exact ⟨same,rfl,rest⟩
  | cons first one =>
    obtain ⟨_,rest⟩ := cons_share equal
    cases (List.append_eq_nil_iff.mp rest).2

theorem completedOf_draining {completion : Completion} {rest : List Completion}
    (draining : server.draining = completion::rest) :
    completedOf server id =
      ((server.completions.filter fun completion => completion.connectionId = id).map Completion.sequence) ++
        if completion.connectionId = id
        then completion.sequence::((rest.filter fun completion => completion.connectionId = id).map Completion.sequence)
        else (rest.filter fun completion => completion.connectionId = id).map Completion.sequence := by
  rw [completedOf,completionsOf,draining,List.filter_append,List.filter_cons,List.map_append]
  simp only [decide_eq_true_eq]
  split <;> rfl

theorem completedOf_tail (server : ServerState) (rest : List Completion) (completions : next.completions = server.completions)
    (draining : next.draining = rest) :
    completedOf next id =
      ((server.completions.filter fun completion => completion.connectionId = id).map Completion.sequence) ++
        ((rest.filter fun completion => completion.connectionId = id).map Completion.sequence) := by
  rw [completedOf,completionsOf,completions,draining,List.filter_append,List.map_append]

theorem Follows.apply {held : List Job} {completion : Completion} {rest : List Completion}
    (follows : Follows place server id moved) (valid : Valid config held server) (now : Int)
    (found : server.connections.lookup fd = some current) (settled : place.applying = none)
    (mine : current.id = completion.connectionId) (draining : server.draining = completion::rest) :
    ∃ strand, Follows {place with applying := some fd} {server.put fd (current.respond config completion now)
      ([.applied current.id completion.sequence] ++ current.overflow (current.respond config completion now)) with
        draining := rest} id strand := by
  have flushed := respond_flushed config completion now current
  have same := respond_id config completion now current
  by_cases own : id = current.id
  · subst own
    have steady := follows.opened found
    have answered := steady.completed
    rw [completedOf_draining draining,if_pos mine.symm] at answered
    obtain ⟨rfl,before,after⟩ := append_share answered
    have none : completedOf {server.put fd (current.respond config completion now)
        ([.applied current.id completion.sequence] ++ current.overflow (current.respond config completion now)) with
          draining := rest} current.id = [] := by
      refine Eq.trans (completedOf_tail server rest ?_ ?_) ?_
      · rfl
      · rfl
      · rw [before]
        exact after
    have legal : strand current.id (server.trace ++ ([.applied current.id completion.sequence] ++
        current.overflow (current.respond config completion now))) = some ⟨.applied,completion.sequence⟩ := by
      rw [← List.append_assoc,strand_neutral]
      · exact strand_own follows.legal rfl (if_pos rfl)
      · intro event member strand
        rw [overflow_own _ _ event member]
        rfl
    refine ⟨⟨.applied,completion.sequence⟩,legal,follows.launched,follows.inline,follows.queued,follows.running,?_,
      fun bound => absurd bound (Nat.not_le_of_lt (valid.below fd current found)),?_⟩
    · rw [none]
      exact List.nil_sublist _
    · rw [none]
      refine steady_insert valid found ⟨?_,?_,?_,?_,rfl,iff_of_true rfl rfl⟩
      · rw [flushed.running]
        exact steady.running.trans (iff_of_true (by simp) (by simp))
      · rw [flushed.queue]
        exact steady.queue
      · rw [flushed.queue,flushed.requests]
        exact steady.requests
      · rw [flushed.queue,flushed.inflight]
        have one : current.inflight = current.commandQueue.length + 1 := steady.inflight
        change current.inflight - 1 = current.commandQueue.length
        rw [one,Nat.add_sub_cancel]
  · refine ⟨moved,follows.unmoved (unmoved_beside own rfl same rfl rfl rfl ?_ ?_ rfl rfl ?_)⟩
    · refine List.forall_mem_append.mpr ⟨List.forall_mem_singleton.mpr rfl,fun event member => ?_⟩
      rw [overflow_own _ _ event member]
      rfl
    · rw [completedOf_draining draining,if_neg (fun equal => own (equal.symm.trans mine.symm))]
      exact completedOf_tail server rest rfl rfl
    · intro other there
      rw [settled]
      simp [Ne.symm there]

theorem Follows.discard {completion : Completion} {rest : List Completion} (follows : Follows place server id moved)
    (draining : server.draining = completion::rest)
    (gone : ∀ fd connection, server.connections.lookup fd = some connection →
      connection.id ≠ completion.connectionId) : Follows place {server with draining := rest} id moved := by
  have tail : completedOf {server with draining := rest} id = _ := completedOf_tail server rest rfl rfl
  by_cases own : completion.connectionId = id
  · refine {follows with completed := ?_, steady := fun fd connection found same => ?_}
    · have completed := follows.completed
      rw [completedOf_draining draining,if_pos own] at completed
      rw [tail]
      exact ((List.Sublist.refl _).append (List.sublist_cons_self _ _)).trans completed
    · exact absurd (same.trans own.symm) (gone fd connection found)
  · refine follows.unmoved (unmoved_apart rfl rfl rfl rfl rfl rfl rfl rfl ?_)
    rw [completedOf_draining draining,if_neg own]
    exact tail

theorem Follows.drain (follows : Follows place server id moved) (empty : server.draining = []) :
    Follows place {server with completions := [], draining := server.completions} id moved := by
  refine follows.unmoved (unmoved_apart rfl rfl rfl rfl rfl rfl rfl rfl ?_)
  rw [completedOf,completedOf,completionsOf,completionsOf,empty,List.append_nil]
  rfl

theorem Follows.accept (follows : Follows place server id moved) (now : Int)
    (opened : ∀ fd, place.applying = some fd → ∃ connection, server.connections.lookup fd = some connection)
    (unused : server.connections.lookup fd = none) {unread : Option Nat} {attended : Set Nat} :
    Follows {place with unread := unread, attended := attended} {server with
      connections := server.connections.insert fd (Connection.new config server.nextConnectionId now)
      nextConnectionId := server.nextConnectionId + 1
      trace := server.trace ++ [.accepted server.nextConnectionId fd]} id moved := by
  have legal : strand id (server.trace ++ [.accepted server.nextConnectionId fd]) = some moved :=
    (strand_neutral (List.forall_mem_singleton.mpr fun _ => rfl)).trans follows.legal
  refine {follows with legal := legal, fresh := fun bound => follows.fresh (Nat.le_of_succ_le bound), steady := ?_}
  intro other connection at_ own
  rw [lookup_insert] at at_
  split at at_
  · next here =>
    cases at_
    have mine : server.nextConnectionId = id := own
    obtain rfl := follows.fresh (le_of_eq mine)
    have none : completedOf server id = [] := List.sublist_nil.mp follows.completed
    refine ⟨iff_of_false (by simp [Connection.new]) (by simp),rfl,rfl,rfl,none,iff_of_false (by simp) fun applying => ?_⟩
    obtain ⟨connection,found⟩ := opened other applying
    rw [here,unused] at found
    cases found
  · exact follows.steady other connection at_ own

theorem Follows.close (follows : Follows place server id moved) :
    Follows place {server with
      connections := server.connections.erase fd
      trace := server.trace ++ [.closed current.id]} id moved := by
  have legal : strand id (server.trace ++ [.closed current.id]) = some moved :=
    (strand_neutral (List.forall_mem_singleton.mpr fun _ => rfl)).trans follows.legal
  refine {follows with legal := legal, steady := fun other connection at_ own => ?_}
  exact follows.steady other connection (lookup_erase_some at_).2 own

theorem Change.unmoved (change : Change parsing current events changed)
    (found : server.connections.lookup fd = some current) : Unmoved place server place (server.put fd changed events) id := by
  cases change <;> exact unmoved_put rfl rfl found rfl rfl rfl rfl rfl (by simp [Strand.step])

/-- A step of the position that the strands do not depend on. -/
theorem Follows.settle {unread parsing : Option Nat} {attended : Set Nat} (follows : Follows place server id moved) :
    Follows {place with unread := unread, parsing := parsing, attended := attended} server id moved :=
  {follows with}

theorem Follows.record {event : Event} {unread : Option Nat} {attended : Set Nat} (follows : Follows place server id moved)
    (neutral : ∀ strand : Strand, strand.step event = some strand) :
    Follows {place with unread := unread, attended := attended} {server with trace := server.trace ++ [event]} id moved :=
  {follows with legal := (strand_neutral (List.forall_mem_singleton.mpr neutral)).trans follows.legal}

theorem Move.follows {held : List Job} (move : Move config place server later next) (valid : Valid config held server)
    (opened : ∀ fd, place.applying = some fd → ∃ connection, server.connections.lookup fd = some connection)
    (follows : Follows place server id moved) : ∃ strand, Follows later next id strand := by
  cases move with
  | take => exact follows.take
  | finish running => exact follows.finish running
  | stop => exact ⟨moved,{follows with}⟩
  | raise | blocked | full | report => exact ⟨moved,follows.record fun _ => rfl⟩
  | change found _ change => exact ⟨moved,follows.unmoved (change.unmoved found)⟩
  | receive bytes now found =>
    exact ⟨moved,follows.unmoved (unmoved_put rfl rfl found rfl rfl rfl rfl rfl (by simp [Strand.step]))⟩
  | enqueue found => exact follows.enqueue valid found
  | parsed | approach | read | widen | release => exact ⟨moved,follows.settle⟩
  | launch found _ free ready queue => exact follows.launch valid found free ready queue
  | submit hand => exact follows.submit hand
  | start hand => exact follows.start hand
  | complete hand => exact follows.complete hand
  | strandEnd found _ applying queue => exact follows.strandEnd valid found applying queue
  | apply now found _ _ settled own draining => exact follows.apply valid now found settled own draining
  | discard draining gone => exact ⟨moved,follows.discard draining gone⟩
  | drain empty => exact ⟨moved,follows.drain empty⟩
  | accept now _ unused => exact ⟨moved,follows.accept now opened unused⟩
  | close => exact ⟨moved,follows.close⟩

theorem Move.opened (move : Move config place server later next)
    (opened : ∀ fd, place.applying = some fd → ∃ connection, server.connections.lookup fd = some connection) :
    ∀ fd, later.applying = some fd → ∃ connection, next.connections.lookup fd = some connection := by
  have put : ∀ {fd changed} events, ∀ other, (∃ connection, server.connections.lookup other = some connection) →
      ∃ connection, (server.put fd changed events).connections.lookup other = some connection := by
    rintro fd changed events other ⟨connection,found⟩
    rw [ServerState.put,lookup_insert]
    split
    · exact ⟨changed,rfl⟩
    · exact ⟨connection,found⟩
  intro other applying
  cases move with
  | take =>
    rw [take_connections]
    exact opened other applying
  | change | receive | enqueue => exact put _ other (opened other applying)
  | launch | strandEnd => cases applying
  | apply now found =>
    cases applying
    exact ⟨_,AList.lookup_insert _⟩
  | accept now =>
    obtain ⟨connection,found⟩ := opened other applying
    rw [lookup_insert]
    split
    · exact ⟨_,rfl⟩
    · exact ⟨connection,found⟩
  | close _ settled => cases settled.symm.trans applying
  | _ => exact opened other applying

theorem ordered_initial (config : ServerConfig) : Ordered (.resting ∅) (ServerState.initial config) := by
  refine ⟨fun id => ⟨⟨.idle,0⟩,rfl,rfl,rfl,rfl,rfl,List.Sublist.refl _,fun _ => rfl,fun fd connection found => ?_⟩,nofun⟩
  cases found

theorem Reached.ordered (reached : Reached config place server) : Ordered place server := by
  induction reached with
  | start => exact ordered_initial config
  | next before move ih =>
    refine ⟨fun id => ?_,move.opened ih.applying⟩
    obtain ⟨moved,follows⟩ := ih.strands id
    exact move.follows before.valid ih.applying follows

/-- How many commands of a strand have been executed. -/
def Strand.executed (strand : Strand) : Nat :=
  if strand.phase = .completed ∨ strand.phase = .applied then strand.sequence + 1 else strand.sequence

theorem guarded_some {condition : Prop} [Decidable condition] {one two : Strand}
    (step : (if condition then some one else none) = some two) : condition ∧ one = two := by
  obtain ⟨met,same⟩ := Option.ite_none_right_eq_some.mp step
  exact ⟨met,Option.some.inj same⟩

theorem Strand.step_started {one two : Strand} {id sequence : Nat} (step : one.step (.started id sequence) = some two) :
    one = ⟨.submitted,sequence⟩ ∧ two = ⟨.running,sequence⟩ ∨ one = ⟨.launched,sequence⟩ ∧ two = ⟨.inline,sequence⟩ := by
  change (if one = ⟨.submitted,sequence⟩ then some (Strand.mk .running sequence) else _) = some two at step
  split at step
  · next here => exact Or.inl ⟨here,(Option.some.inj step).symm⟩
  · obtain ⟨here,same⟩ := guarded_some step
    exact Or.inr ⟨here,same.symm⟩

theorem Strand.step_executed {one two : Strand} {event : Event} (step : one.step event = some two) (wire : Wire)
    (before : wire.executions.map Prod.fst = List.range one.executed) :
    (wire.step event).executions.map Prod.fst = List.range two.executed := by
  cases event with
  | launched id sequence =>
    obtain ⟨⟨paused,rfl⟩,rfl⟩ := guarded_some step
    have same : one.first = one.executed := by
      unfold Strand.first Strand.executed
      rcases paused with phase | phase <;> simp [phase]
    exact before.trans (congrArg List.range same.symm)
  | submitted id sequence | applied id sequence =>
    obtain ⟨rfl,rfl⟩ := guarded_some step
    exact before
  | started id sequence =>
    rcases Strand.step_started step with ⟨rfl,rfl⟩ | ⟨rfl,rfl⟩ <;> exact before
  | executed id sequence request reply =>
    obtain ⟨here,rfl⟩ := guarded_some step
    have number : one.executed = sequence := by rcases here with rfl | rfl <;> rfl
    rw [number] at before
    change (wire.executions ++ [(sequence,request,reply)]).map Prod.fst = List.range (sequence + 1)
    rw [List.map_append,before,List.range_succ]
    rfl
  | strandEnded id =>
    obtain ⟨phase,rfl⟩ := guarded_some step
    refine before.trans (congrArg List.range ?_)
    simp [Strand.executed,phase]
  | _ =>
    cases step
    exact before

/-- What holds of a strand and its events is shown one event at a time. -/
theorem strand_induction {id : Nat} {trace : List Event} (relation : List Event → Strand → Prop)
    (start : relation [] ⟨.idle,0⟩)
    (step : ∀ own event one two, one.step event = some two → relation own one → relation (own ++ [event]) two)
    (legal : strand id trace = some moved) : relation (history id trace) moved := by
  unfold strand at legal
  generalize history id trace = own at legal
  induction own using List.reverseRecOn generalizing moved with
  | nil =>
    cases legal
    exact start
  | append_singleton own event ih =>
    rw [List.foldlM_append] at legal
    obtain ⟨middle,before,last⟩ := Option.bind_eq_some_iff.mp legal
    exact step own event middle moved (by simpa using last) (ih before)

/-- A strand that goes through its phases in order executes its commands in order. -/
theorem strand_executed {id : Nat} {trace : List Event} (legal : strand id trace = some moved) :
    (wire id trace).executions.map Prod.fst = List.range moved.executed := by
  refine strand_induction
    (fun own moved => (own.foldl Wire.step Wire.empty).executions.map Prod.fst = List.range moved.executed) rfl ?_ legal
  intro own event one two step before
  rw [List.foldl_append]
  exact Strand.step_executed step _ before

theorem strand_split {id : Nat} {front back : List Event} (legal : strand id (front ++ back) = some moved) :
    ∃ earlier, strand id front = some earlier ∧ (history id back).foldlM Strand.step earlier = some moved := by
  rw [strand_append] at legal
  exact Option.bind_eq_some_iff.mp legal

/-- A command starts when just the commands before it have been executed. -/
theorem strand_started {id sequence : Nat} {front back : List Event}
    (legal : strand id (front ++ .started id sequence::back) = some moved) :
    (wire id front).executions.map Prod.fst = List.range sequence := by
  obtain ⟨earlier,before,after⟩ := strand_split legal
  rw [strand_executed before]
  have own : history id (.started id sequence::back) = .started id sequence::history id back :=
    List.filter_cons_of_pos (by simp [Event.connection])
  rw [own,List.foldlM_cons] at after
  obtain ⟨middle,step,_⟩ := Option.bind_eq_some_iff.mp after
  rcases Strand.step_started step with ⟨rfl,_⟩ | ⟨rfl,_⟩ <;> rfl

theorem foldl_commands (events : List Event) (wire : Wire) : wire.commands <+: (events.foldl Wire.step wire).commands := by
  induction events generalizing wire with
  | nil => exact List.prefix_rfl
  | cons event events ih =>
    refine List.IsPrefix.trans ?_ (ih _)
    cases event
    case parsed => exact List.prefix_append _ _
    all_goals exact List.prefix_rfl

theorem foldl_executions {events : List Event} {wire : Wire} {execution : Nat × RespValue × RespValue}
    (member : execution ∈ (events.foldl Wire.step wire).executions) :
    execution ∈ wire.executions ∨ ∃ id, .executed id execution.1 execution.2.1 execution.2.2 ∈ events := by
  induction events generalizing wire with
  | nil => exact Or.inl member
  | cons event events ih =>
    rcases ih member with old | ⟨id,later⟩
    · cases event
      case executed id sequence request reply =>
        rcases List.mem_append.mp old with old | new
        · exact Or.inl old
        · cases List.mem_singleton.mp new
          exact Or.inr ⟨id,List.mem_cons_self⟩
      all_goals exact Or.inl old
    · exact Or.inr ⟨id,List.mem_cons_of_mem _ later⟩

/-- Every execution is that of the command with its number. -/
theorem Reached.requested (reached : Reached config place server) :
    ∀ execution ∈ (wire id server.trace).executions,
      (wire id server.trace).commands[execution.1]? = some execution.2.1 := by
  induction reached with
  | start => exact nofun
  | next before move ih =>
    obtain ⟨events,grown,occurs⟩ := move.trace
    rw [grown,wire_append]
    intro execution member
    refine getElem?_of_begins (foldl_commands _ _) ?_
    rcases foldl_executions member with old | ⟨owner,new⟩
    · exact ih execution old
    · obtain ⟨inside,own⟩ := List.mem_filter.mp new
      obtain rfl : owner = id := by simpa [Event.connection] using own
      refine (before.valid.tracked owner).known ⟨owner,execution.1,execution.2.1⟩ (List.mem_filter.mpr ⟨?_,by simp⟩)
      rcases List.mem_append.mp (occurs _ inside) with hand | running
      · exact List.mem_append_left _ hand
      · exact List.mem_append_right _ (List.mem_append_right _ running)

/-- The I/O thread is neither handing over a command of the connection nor in the middle of
applying a reply to it. -/
def AtBoundary (id : Nat) (trace : List Event) : Prop :=
  ∀ moved, strand id trace = some moved → moved.phase ≠ .launched ∧ moved.phase ≠ .applied

def inlineOf (id : Nat) (trace : List Event) : List Nat :=
  match strand id trace with
  | none => []
  | some moved => moved.share .inline

/-- The commands of a connection that are submitted, executing on a worker or inline, or
completed and not applied. -/
def outstanding (server : ServerState) (id : Nat) : List Nat :=
  sequencesOf id server.pool.jobs ++ sequencesOf id server.pool.running ++ inlineOf id server.trace ++
    completedOf server id

theorem Follows.outstanding (follows : Follows place server current.id moved)
    (found : server.connections.lookup fd = some current) (boundary : AtBoundary current.id server.trace) :
    (outstanding server current.id).length = (if current.strandRunning then 1 else 0) ∧
      current.inflight = current.commandQueue.length + (if current.strandRunning then 1 else 0) := by
  have steady := follows.opened found
  obtain ⟨launched,applied⟩ := boundary moved follows.legal
  have total : Server.outstanding server current.id = moved.share .submitted ++ moved.share .running ++
      moved.share .inline ++ moved.share .completed := by
    rw [Server.outstanding,follows.queued,follows.running,inlineOf,follows.legal,steady.completed]
  have running := steady.running
  rw [total,steady.inflight]
  obtain ⟨phase,sequence⟩ := moved
  cases phase with
  | launched => exact absurd rfl launched
  | applied => exact absurd rfl applied
  | idle =>
    have stopped : current.strandRunning = false := by simpa using running
    rw [stopped]
    exact ⟨rfl,rfl⟩
  | _ =>
    have going : current.strandRunning = true := by simpa using running
    rw [going]
    exact ⟨rfl,rfl⟩

theorem iterations_boundary {rounds : List (List Input)} (ran : iterations config rounds = some server)
    (found : server.connections.lookup fd = some current) : AtBoundary current.id server.trace := by
  obtain ⟨moved,follows⟩ := (iterations_at ran).reached.ordered.strands current.id
  intro other legal
  obtain rfl : moved = other := Option.some.inj (follows.legal.symm.trans legal)
  refine ⟨fun launched => ?_,fun applied => ?_⟩
  · have none := follows.launched
    rw [Strand.share,if_pos launched] at none
    cases none
  · cases (follows.opened found).applying.mp applied

/-- At every moment of every run: an open connection at a boundary has one command under
way if its strand is running and none otherwise, and counts it together with those queued.
The commands of a connection are executed in wire order, each with the number of its place,
and one starts when just the commands before it have been executed. Between two iterations
of `run` every connection is at a boundary. -/
theorem strand_runs_one_command (config : ServerConfig) (inputs : List Input) :
    (∀ fd connection, (stateAfter config inputs).connections.lookup fd = some connection →
      AtBoundary connection.id (stateAfter config inputs).trace →
      (outstanding (stateAfter config inputs) connection.id).length = (if connection.strandRunning then 1 else 0) ∧
        connection.inflight = connection.commandQueue.length + (if connection.strandRunning then 1 else 0)) ∧
    (∀ id, (∃ count, (wire id (stateAfter config inputs).trace).executions.map Prod.fst = List.range count) ∧
      (∀ execution ∈ (wire id (stateAfter config inputs).trace).executions,
        (wire id (stateAfter config inputs).trace).commands[execution.1]? = some execution.2.1) ∧
      ∀ front sequence back, (stateAfter config inputs).trace = front ++ .started id sequence::back →
        (wire id front).executions.map Prod.fst = List.range sequence) ∧
    ∀ rounds server, iterations config rounds = some server →
      ∀ fd connection, server.connections.lookup fd = some connection → AtBoundary connection.id server.trace := by
  obtain ⟨place,reached⟩ := run_moment config inputs
  refine ⟨fun fd connection found boundary => ?_,fun id => ?_,fun rounds server ran fd connection found => ?_⟩
  · obtain ⟨moved,follows⟩ := reached.ordered.strands connection.id
    exact follows.outstanding found boundary
  · obtain ⟨moved,follows⟩ := reached.ordered.strands id
    refine ⟨⟨_,strand_executed follows.legal⟩,reached.requested,fun front sequence back split => ?_⟩
    have legal := follows.legal
    rw [split] at legal
    exact strand_started legal
  · exact iterations_boundary ran found

end NovaCache.Server
