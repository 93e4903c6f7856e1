import NovaCache.Server.Invariant
import NovaCache.Server.Runs

/-! Every step of the server keeps the invariant, and so every moment of every run delivers
only replies in order. -/
namespace NovaCache.Server
open Protocol Interaction
variable {config : ServerConfig} {held : List Job} {fd : Nat} {place later : Position} {server next : ServerState}
  {current changed : Connection} {events : List Event} {limits : ParserLimits} {before : Wire}
  {parsing : Option Nat} {jobs : List Job}

theorem eraseIdx_perm {jobs : List Job} {index : Nat} {job : Job} (found : jobs[index]? = some job) :
    jobs.Perm (job::jobs.eraseIdx index) := by
  obtain ⟨inside,rfl⟩ := List.getElem?_eq_some_iff.mp found
  exact (List.getElem_cons_eraseIdx_perm inside).symm

theorem Valid.take (valid : Valid config held server) : Valid config held (take server) := by
  unfold Server.take
  split
  · exact valid
  · next job jobs queue =>
    split
    · exact valid
    · refine valid.reorder rfl (fun id => wire_neutral fun _ => rfl) rfl ?_ (fun _ member => member)
      refine List.Perm.append_left held ?_
      rw [queue,← List.append_assoc]
      exact (List.perm_append_singleton job _).symm

theorem Valid.finish {index : Nat} {job : Job} {reply : RespValue} {payload : Bytes} (valid : Valid config held server)
    (running : server.pool.running[index]? = some job) (encoded : encode reply = .ok payload) :
    Valid config held (Server.complete job reply payload {server with pool := server.pool.release index}) := by
  refine valid.complete ?_ encoded rfl rfl rfl rfl rfl
  have moved := (eraseIdx_perm running).append_left (held ++ server.pool.jobs)
  rw [List.append_assoc] at moved
  refine moved.trans (List.perm_middle.trans ?_)
  rw [List.append_assoc]
  exact List.Perm.refl _

theorem Valid.record {event : Event} (valid : Valid config held server) (neutral : ∀ wire : Wire, wire.step event = wire) :
    Valid config held {server with trace := server.trace ++ [event]} :=
  valid.reorder rfl (fun _ => wire_neutral neutral) rfl (List.Perm.refl _) (fun _ member => member)

theorem Valid.put (valid : Valid config held server) (found : server.connections.lookup fd = some current)
    (same : changed.id = current.id) (own : ∀ event ∈ events, event.connection = some current.id)
    (consistent : Consistent config.parserLimits (events.foldl Wire.step (wire current.id server.trace))
      (jobsOf held server current.id) changed)
    (commands : (wire current.id server.trace).commands <+:
      (events.foldl Wire.step (wire current.id server.trace)).commands)
    (executions : (events.foldl Wire.step (wire current.id server.trace)).executions =
      (wire current.id server.trace).executions) : Valid config held (server.put fd changed events) :=
  valid.update found same own rfl rfl rfl rfl (fun _ member => member) (fun _ _ => rfl) consistent commands executions
    fun _ member => Or.inl member

theorem Change.own (change : Change parsing current events changed) :
    changed.id = current.id ∧ ∀ event ∈ events, event.connection = some current.id := by
  cases change <;> exact ⟨rfl,by simp [Event.connection]⟩

theorem Change.commands (change : Change parsing current events changed) (before : Wire) :
    (events.foldl Wire.step before).commands = before.commands ∧
      (events.foldl Wire.step before).executions = before.executions ∧
      (events.foldl Wire.step before).received = before.received := by
  cases change <;> exact ⟨rfl,rfl,rfl⟩

theorem Change.consistent (change : Change parsing current events changed)
    (consistent : Consistent limits before jobs current) :
    Consistent limits (events.foldl Wire.step before) jobs changed := by
  cases change with
  | register => exact consistent.touch rfl rfl rfl rfl rfl rfl id
  | note | block => exact consistent
  | send count now => exact consistent.write now
  | breaks => exact consistent.breaks
  | refuse active => exact consistent.fail active (next_shrinks current.parser).1 (next_shrinks current.parser).2
  | endInside active => exact consistent.fail active rfl (le_refl _)
  | endIdle => exact consistent.touch rfl rfl rfl rfl rfl rfl fun _ => rfl
  | endBusy => exact consistent.touch rfl rfl rfl rfl rfl rfl id

theorem Valid.change (valid : Valid config held server) (found : server.connections.lookup fd = some current)
    (change : Change place.parsing current events changed) :
    Valid config held (server.put fd changed events) :=
  valid.put found change.own.1 change.own.2 (change.consistent (valid.consistent fd current found))
    ((change.commands _).1 ▸ List.prefix_rfl) (change.commands _).2.1

theorem Valid.launch {item : QueuedCommand} {rest : List QueuedCommand} (valid : Valid config [] server)
    (found : server.connections.lookup fd = some current) (queue : current.commandQueue = item::rest) :
    Valid config [⟨current.id,item.sequence,item.request⟩]
      (server.put fd (current.launch rest) [.launched current.id item.sequence]) := by
  have consistent := valid.consistent fd current found
  have same : (current.launch rest).id = current.id := rfl
  refine valid.update found same (by simp [Event.connection]) rfl rfl rfl rfl (fun _ member => member) ?_ ?_
    List.prefix_rfl rfl ?_
  · intro id different
    rw [jobsOf_cons,if_neg different.symm]
  · rw [jobsOf_cons,if_pos rfl]
    exact consistent.launch queue
  · rw [jobsOf_cons,if_pos rfl]
    intro job member
    rcases List.mem_cons.mp member with rfl | old
    · exact Or.inr (consistent.queued item (queue ▸ List.mem_cons_self))
    · exact Or.inl old

theorem overflow_own (connection answered : Connection) :
    ∀ event ∈ connection.overflow answered, event = .overflowed connection.id := by
  intro event member
  unfold Connection.overflow at member
  split at member
  · exact List.mem_singleton.mp member
  · cases member

theorem Valid.apply {completion : Completion} {rest : List Completion} (valid : Valid config held server) (now : Int)
    (found : server.connections.lookup fd = some current) (own : current.id = completion.connectionId)
    (draining : server.draining = completion::rest) :
    Valid config held {server.put fd (current.respond config completion now)
      ([.applied current.id completion.sequence] ++ current.overflow (current.respond config completion now)) with
        draining := rest} := by
  have member : completion ∈ completionsOf server current.id := by
    refine List.mem_filter.mpr ⟨List.mem_append_right _ ?_,by simp [own]⟩
    rw [draining]
    exact List.mem_cons_self
  have answered := (valid.tracked current.id).answered completion member
  have same := respond_id config completion now current
  have neutral : ([Event.applied current.id completion.sequence] ++
      current.overflow (current.respond config completion now)).foldl Wire.step (wire current.id server.trace) =
        wire current.id server.trace := by
    rw [Connection.overflow]
    split <;> rfl
  refine valid.update found same ?_ rfl rfl rfl rfl ?_ (fun _ _ => rfl) ?_ ?_ ?_ fun _ inside => Or.inl inside
  · refine List.forall_mem_append.mpr ⟨List.forall_mem_singleton.mpr rfl,fun event member => ?_⟩
    rw [overflow_own _ _ event member]
    rfl
  · intro other inside
    rcases List.mem_append.mp inside with first | second
    · exact List.mem_append_left _ first
    · refine List.mem_append_right _ ?_
      rw [draining]
      exact List.mem_cons_of_mem _ second
  · rw [neutral]
    exact (valid.consistent fd current found).respond answered
  · rw [neutral]
  · rw [neutral]

theorem Move.valid (move : Move config place server later next) (valid : Valid config place.hand.jobs server) :
    Valid config later.hand.jobs next := by
  cases move with
  | take => exact valid.take
  | finish running encoded => exact valid.finish running encoded
  | stop => exact valid.reorder rfl (fun _ => rfl) rfl (List.Perm.refl _) (fun _ member => member)
  | raise | blocked | full | report => exact valid.record fun _ => rfl
  | change found _ change => exact valid.change found change
  | receive bytes now found =>
    exact valid.put found rfl (by simp [Event.connection]) ((valid.consistent _ _ found).receive bytes now)
      List.prefix_rfl rfl
  | enqueue found _ _ active _ parsed =>
    exact valid.put found rfl (by simp [Event.connection])
      ((valid.consistent _ _ found).enqueue (valid.tracked _) active parsed) (List.prefix_append _ _) rfl
  | parsed | approach | read | widen | release => exact valid
  | launch found _ free _ queue =>
    rw [free] at valid
    exact valid.launch found queue
  | @submit job hand =>
    rw [hand] at valid
    refine valid.reorder rfl (fun _ => wire_neutral fun _ => rfl) rfl ?_ (fun _ member => member)
    change (job::(server.pool.jobs ++ server.pool.running)).Perm (server.pool.jobs ++ [job] ++ server.pool.running)
    rw [List.append_assoc]
    exact List.perm_middle.symm
  | start hand =>
    rw [hand] at valid
    exact valid.record fun _ => rfl
  | complete hand encoded =>
    rw [hand] at valid
    exact valid.complete (List.Perm.refl _) encoded rfl rfl rfl rfl rfl
  | strandEnd found =>
    exact valid.put found rfl (by simp [Event.connection])
      ((valid.consistent _ _ found).touch rfl rfl rfl rfl rfl rfl id) List.prefix_rfl rfl
  | apply now found _ _ _ own draining => exact valid.apply now found own draining
  | discard draining =>
    refine valid.reorder rfl (fun _ => rfl) rfl (List.Perm.refl _) fun other inside => ?_
    rw [draining]
    exact (List.mem_append.mp inside).elim (List.mem_append_left _) fun later =>
      List.mem_append_right _ (List.mem_cons_of_mem _ later)
  | drain =>
    refine valid.reorder rfl (fun _ => rfl) rfl (List.Perm.refl _) fun completion member => ?_
    exact List.mem_append_left _ (by simpa using member)
  | accept now => exact valid.accept now
  | close => exact valid.close

theorem Reached.valid (reached : Reached config place server) : Valid config place.hand.jobs server := by
  induction reached with
  | start => exact valid_initial config
  | next _ move ih => exact move.valid ih

/-- At every moment of every run: the commands of a connection stand in their order at the front
of the bytes received from it, and what it has sent begins the replies to its own commands, each
executed once, in this order, with at most one error frame between them, if a socket that takes
no more bytes stays so. -/
theorem replies_delivered_in_order (config : ServerConfig) (inputs : List Input) (id : Nat) :
    ((wire id (stateAfter config inputs).trace).StaysClosed → Delivered (wire id (stateAfter config inputs).trace)) ∧
      InWireOrder config.parserLimits (wire id (stateAfter config inputs).trace) := by
  obtain ⟨place,reached⟩ := run_moment config inputs
  exact ⟨(reached.valid.tracked id).delivered,(reached.valid.tracked id).ordered⟩

/-- Two `PING` are read and answered. Three bytes of the first `+PONG` are sent before the socket
reports that it is closed, and the second reply finds it closed again. -/
def cutOff : List Input :=
  let ping := [0x2A,0x31,0x0D,0x0A,0x24,0x34,0x0D,0x0A,0x50,0x49,0x4E,0x47,0x0D,0x0A]
  let pong := .simple [0x50,0x4F,0x4E,0x47]
  [.others [],.ready [⟨3,⟨true,false⟩,false,false⟩],.others [],.others [],.others [],.accepted 7,.succeeded,.clock 0,
    .succeeded,.others [],.received (ping ++ ping),.clock 0,.others [],.others [],.others [],.others [],
    .others [.take,.finish 0 pong],.blocked,.others [],.clock 0,.sent 3,.clock 0,.closed,.others [],.succeeded,
    .others [.take,.finish 0 pong],.clock 0,.closed]

theorem replies_delivered_cutOff :
    (wire 1 (stateAfter ⟨1,10,2,1000,0,.default,3⟩ cutOff).trace).sent = [0x2B,0x50,0x4F] ∧
      (wire 1 (stateAfter ⟨1,10,2,1000,0,.default,3⟩ cutOff).trace).broken = true ∧
      (wire 1 (stateAfter ⟨1,10,2,1000,0,.default,3⟩ cutOff).trace).executions.length = 2 ∧
      Delivered (wire 1 (stateAfter ⟨1,10,2,1000,0,.default,3⟩ cutOff).trace) := by
  refine ⟨by decide +kernel,by decide +kernel,by decide +kernel,?_⟩
  exact (replies_delivered_in_order ⟨1,10,2,1000,0,.default,3⟩ cutOff 1).1 (by decide +kernel)

end NovaCache.Server
