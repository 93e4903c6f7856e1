import NovaCache.Server.Delivery

/-! The invariant of the whole server: every connection that was ever accepted has the
invariant of its wire, and open connections have distinct identifiers. -/
namespace NovaCache.Server
open Protocol Interaction
variable {config : ServerConfig} {held more : List Job} {server next : ServerState}

def jobsOf (held : List Job) (server : ServerState) (id : Nat) : List Job :=
  (held ++ (server.pool.jobs ++ server.pool.running)).filter (fun job => job.connectionId = id)

def completionsOf (server : ServerState) (id : Nat) : List Completion :=
  (server.completions ++ server.draining).filter (fun completion => completion.connectionId = id)

structure Valid (config : ServerConfig) (held : List Job) (server : ServerState) : Prop where
  tracked : ∀ id, Tracked config.parserLimits (wire id server.trace) (jobsOf held server id) (completionsOf server id)
  consistent : ∀ fd connection, server.connections.lookup fd = some connection →
    Consistent config.parserLimits (wire connection.id server.trace) (jobsOf held server connection.id) connection
  unique : ∀ fd other one two, server.connections.lookup fd = some one → server.connections.lookup other = some two →
    one.id = two.id → fd = other
  below : ∀ fd connection, server.connections.lookup fd = some connection → connection.id < server.nextConnectionId
  fresh : ∀ id, server.nextConnectionId ≤ id → wire id server.trace = Wire.empty

theorem wire_append (id : Nat) (trace events : List Event) :
    wire id (trace ++ events) = (history id events).foldl Wire.step (wire id trace) := by
  rw [wire,wire,history,List.filter_append,List.foldl_append]
  rfl

theorem wire_other {id : Nat} {trace events : List Event} (others : ∀ event ∈ events, event.connection ≠ some id) :
    wire id (trace ++ events) = wire id trace := by
  have none : history id events = [] := List.filter_eq_nil_iff.mpr fun event member => by simpa using others event member
  rw [wire_append,none]
  rfl

theorem wire_own {id : Nat} {trace events : List Event} (own : ∀ event ∈ events, event.connection = some id) :
    wire id (trace ++ events) = events.foldl Wire.step (wire id trace) := by
  have all : history id events = events := List.filter_eq_self.mpr fun event member => by simpa using own event member
  rw [wire_append,all]

theorem wire_neutral {id : Nat} {trace : List Event} {event : Event} (neutral : ∀ wire : Wire, wire.step event = wire) :
    wire id (trace ++ [event]) = wire id trace := by
  rw [wire_append,history,List.filter_cons]
  split
  · exact neutral _
  · rfl

theorem jobsOf_perm {id : Nat} (moved : (held ++ (server.pool.jobs ++ server.pool.running)).Perm
    (more ++ (next.pool.jobs ++ next.pool.running))) : (jobsOf held server id).Perm (jobsOf more next id) :=
  moved.filter _

theorem jobsOf_cons (job : Job) (server : ServerState) (id : Nat) :
    jobsOf (job::held) server id =
      if job.connectionId = id then job::jobsOf held server id else jobsOf held server id := by
  rw [jobsOf,List.cons_append,List.filter_cons]
  simp only [decide_eq_true_eq]
  rfl

theorem completionsOf_sub {id : Nat} (kept : ∀ completion ∈ next.completions ++ next.draining,
      completion ∈ server.completions ++ server.draining) :
    ∀ completion ∈ completionsOf next id, completion ∈ completionsOf server id := by
  intro completion member
  obtain ⟨inside,same⟩ := List.mem_filter.mp member
  exact List.mem_filter.mpr ⟨kept completion inside,same⟩

theorem Valid.reorder (valid : Valid config held server) (connections : next.connections = server.connections)
    (wires : ∀ id, wire id next.trace = wire id server.trace) (count : next.nextConnectionId = server.nextConnectionId)
    (moved : (held ++ (server.pool.jobs ++ server.pool.running)).Perm (more ++ (next.pool.jobs ++ next.pool.running)))
    (kept : ∀ completion ∈ next.completions ++ next.draining, completion ∈ server.completions ++ server.draining) :
    Valid config more next := by
  refine ⟨fun id => ?_,fun fd connection found => ?_,?_,?_,?_⟩
  · rw [wires]
    exact (valid.tracked id).reorder (jobsOf_perm moved) (completionsOf_sub kept)
  · rw [connections] at found
    rw [wires]
    exact (valid.consistent fd connection found).reorder (jobsOf_perm moved)
  · rw [connections]
    exact valid.unique
  · rw [connections,count]
    exact valid.below
  · rw [count]
    exact fun id bound => (wires id).trans (valid.fresh id bound)

theorem completionsOf_added {added : Completion} (completions : next.completions = server.completions ++ [added])
    (draining : next.draining = server.draining) {id : Nat} {completion : Completion}
    (member : completion ∈ completionsOf next id) :
    completion ∈ completionsOf server id ∨ completion = added ∧ added.connectionId = id := by
  obtain ⟨inside,same⟩ := List.mem_filter.mp member
  rw [completions,draining,List.append_assoc,List.mem_append,List.singleton_append,List.mem_cons] at inside
  rcases inside with old | rfl | old
  · exact Or.inl (List.mem_filter.mpr ⟨List.mem_append_left _ old,same⟩)
  · exact Or.inr ⟨rfl,by simpa using same⟩
  · exact Or.inl (List.mem_filter.mpr ⟨List.mem_append_right _ old,same⟩)

theorem Valid.complete {job : Job} {reply : RespValue} {payload : Bytes} (valid : Valid config held server)
    (taken : (held ++ (server.pool.jobs ++ server.pool.running)).Perm
      (job::(more ++ (next.pool.jobs ++ next.pool.running))))
    (encoded : encode reply = .ok payload) (connections : next.connections = server.connections)
    (trace : next.trace = server.trace ++ [.executed job.connectionId job.sequence job.request reply])
    (count : next.nextConnectionId = server.nextConnectionId)
    (completions : next.completions = server.completions ++ [⟨job.connectionId,job.sequence,payload⟩])
    (draining : next.draining = server.draining) : Valid config more next := by
  have others : ∀ id, id ≠ job.connectionId → wire id next.trace = wire id server.trace ∧
      (jobsOf held server id).Perm (jobsOf more next id) ∧
      ∀ completion ∈ completionsOf next id, completion ∈ completionsOf server id := by
    intro id different
    refine ⟨?_,?_,fun completion member => ?_⟩
    · rw [trace]
      exact wire_other (by simpa [Event.connection] using different.symm)
    · have moved := @jobsOf_perm held (job::more) server next id taken
      rwa [jobsOf_cons,if_neg different.symm] at moved
    · exact (completionsOf_added completions draining member).resolve_right fun new => different new.2.symm
  have here : wire job.connectionId next.trace = {wire job.connectionId server.trace with
      executions := (wire job.connectionId server.trace).executions ++ [(job.sequence,job.request,reply)]} := by
    rw [trace]
    exact wire_own (by simp [Event.connection])
  have own : (jobsOf held server job.connectionId).Perm (job::jobsOf more next job.connectionId) := by
    have moved := @jobsOf_perm held (job::more) server next job.connectionId taken
    rwa [jobsOf_cons,if_pos rfl] at moved
  refine ⟨fun id => ?_,fun fd connection found => ?_,?_,?_,fun id bound => ?_⟩
  · by_cases same : id = job.connectionId
    · subst same
      rw [here]
      refine (valid.tracked job.connectionId).execute own encoded fun completion member => ?_
      refine (completionsOf_added completions draining member).imp_right fun new => ?_
      rw [new.1]
      exact ⟨rfl,rfl⟩
    · obtain ⟨wires,moved,kept⟩ := others id same
      rw [wires]
      exact (valid.tracked id).reorder moved kept
  · rw [connections] at found
    have consistent := valid.consistent fd connection found
    by_cases same : connection.id = job.connectionId
    · rw [same] at consistent ⊢
      rw [here]
      exact consistent.execute own reply ((valid.tracked _).unexecuted own)
    · obtain ⟨wires,moved,_⟩ := others _ same
      rw [wires]
      exact consistent.reorder moved
  · rw [connections]
    exact valid.unique
  · rw [connections,count]
    exact valid.below
  · rw [count] at bound
    by_cases same : id = job.connectionId
    · -- no job has an identifier that was not given out
      have command := (valid.tracked id).known job (by rw [same]; exact own.mem_iff.mpr List.mem_cons_self)
      rw [valid.fresh id bound] at command
      cases command
    · rw [(others id same).1]
      exact valid.fresh id bound

/-- The events of one connection do not touch the wire of another. -/
theorem wire_elsewhere {id here : Nat} {trace events : List Event} (own : ∀ event ∈ events, event.connection = some here)
    (different : id ≠ here) : wire id (trace ++ events) = wire id trace := by
  refine wire_other fun event member equal => different ?_
  exact Option.some.inj (equal.symm.trans (own event member))

/-- A connection that is put back in place of another takes over its identifier. -/
theorem lookup_former {connections : AList (fun _ : Nat => Connection)} {fd other : Nat} {connection changed open_ : Connection}
    (found : connections.lookup fd = some connection) (same : changed.id = connection.id)
    (at_ : (connections.insert fd changed).lookup other = some open_) :
    ∃ before, connections.lookup other = some before ∧ before.id = open_.id := by
  rw [lookup_insert] at at_
  split at at_
  · next here =>
    cases at_
    exact ⟨connection,here ▸ found,same.symm⟩
  · exact ⟨open_,at_,rfl⟩

theorem Valid.update {fd : Nat} {connection changed : Connection} {events : List Event} (valid : Valid config held server)
    (found : server.connections.lookup fd = some connection) (same : changed.id = connection.id)
    (own : ∀ event ∈ events, event.connection = some connection.id)
    (connections : next.connections = server.connections.insert fd changed)
    (trace : next.trace = server.trace ++ events) (count : next.nextConnectionId = server.nextConnectionId)
    (pool : next.pool = server.pool)
    (kept : ∀ completion ∈ next.completions ++ next.draining, completion ∈ server.completions ++ server.draining)
    (elsewhere : ∀ id, id ≠ connection.id → jobsOf more server id = jobsOf held server id)
    (consistent : Consistent config.parserLimits (events.foldl Wire.step (wire connection.id server.trace))
      (jobsOf more server connection.id) changed)
    (commands : (wire connection.id server.trace).commands <+:
      (events.foldl Wire.step (wire connection.id server.trace)).commands)
    (executions : (events.foldl Wire.step (wire connection.id server.trace)).executions =
      (wire connection.id server.trace).executions)
    (known : ∀ job ∈ jobsOf more server connection.id, job ∈ jobsOf held server connection.id ∨
      (events.foldl Wire.step (wire connection.id server.trace)).commands[job.sequence]? = some job.request) :
    Valid config more next := by
  have jobs : ∀ id, jobsOf more next id = jobsOf more server id := fun id => by rw [jobsOf,jobsOf,pool]
  have here : wire connection.id next.trace = events.foldl Wire.step (wire connection.id server.trace) := by
    rw [trace]
    exact wire_own own
  have others : ∀ id, id ≠ connection.id → wire id next.trace = wire id server.trace := by
    intro id different
    rw [trace,wire_elsewhere own different]
  have former : ∀ other open_, next.connections.lookup other = some open_ →
      ∃ before, server.connections.lookup other = some before ∧ before.id = open_.id := by
    intro other open_ at_
    exact lookup_former found same (connections ▸ at_)
  refine ⟨fun id => ?_,fun other open_ at_ => ?_,fun first second one two atFirst atSecond equal => ?_,
    fun other open_ at_ => ?_,fun id bound => ?_⟩
  · rw [jobs]
    by_cases equal : id = connection.id
    · subst equal
      rw [here]
      exact ((valid.tracked _).advance consistent commands executions known).reorder (List.Perm.refl _)
        (completionsOf_sub kept)
    · rw [others id equal,elsewhere id equal]
      exact (valid.tracked id).reorder (List.Perm.refl _) (completionsOf_sub kept)
  · rw [jobs]
    rw [connections,lookup_insert] at at_
    split at at_
    · cases at_
      rw [same,here]
      exact consistent
    · next different =>
      have apart : open_.id ≠ connection.id := fun equal => different (valid.unique _ _ _ _ at_ found equal)
      rw [others _ apart,elsewhere _ apart]
      exact valid.consistent other open_ at_
  · obtain ⟨before,atBefore,sameBefore⟩ := former first one atFirst
    obtain ⟨after,atAfter,sameAfter⟩ := former second two atSecond
    exact valid.unique _ _ _ _ atBefore atAfter (sameBefore.trans (equal.trans sameAfter.symm))
  · obtain ⟨before,atBefore,sameBefore⟩ := former other open_ at_
    rw [count,← sameBefore]
    exact valid.below other before atBefore
  · rw [count] at bound
    have below := valid.below fd connection found
    rw [others id (by omega)]
    exact valid.fresh id bound

theorem Valid.close {fd : Nat} {connection : Connection} (valid : Valid config held server) :
    Valid config held {server with
      connections := server.connections.erase fd
      trace := server.trace ++ [.closed connection.id]} := by
  have wires : ∀ id, wire id (server.trace ++ [.closed connection.id]) = wire id server.trace :=
    fun id => wire_neutral fun _ => rfl
  have kept : ∀ other open_, (server.connections.erase fd).lookup other = some open_ →
      server.connections.lookup other = some open_ := by
    intro other open_ at_
    exact (lookup_erase_some at_).2
  refine ⟨fun id => ?_,fun other open_ at_ => ?_,?_,?_,?_⟩
  · exact (wires id).symm ▸ valid.tracked id
  · exact (wires open_.id).symm ▸ valid.consistent other open_ (kept other open_ at_)
  · exact fun first second one two atFirst atSecond => valid.unique _ _ _ _ (kept _ _ atFirst) (kept _ _ atSecond)
  · exact fun other open_ at_ => valid.below other open_ (kept other open_ at_)
  · exact fun id bound => (wires id).trans (valid.fresh id bound)

/-- A new connection starts with an empty wire, whatever its descriptor was before. -/
theorem Valid.accept {fd : Nat} (valid : Valid config held server) (now : Int) :
    Valid config held {server with
      connections := server.connections.insert fd (Connection.new config server.nextConnectionId now)
      nextConnectionId := server.nextConnectionId + 1
      trace := server.trace ++ [.accepted server.nextConnectionId fd]} := by
  have wires : ∀ id, wire id (server.trace ++ [.accepted server.nextConnectionId fd]) = wire id server.trace :=
    fun id => wire_neutral fun _ => rfl
  have lookup : ∀ other open_, (server.connections.insert fd
      (Connection.new config server.nextConnectionId now)).lookup other = some open_ →
      other = fd ∧ open_ = Connection.new config server.nextConnectionId now ∨
        server.connections.lookup other = some open_ := by
    intro other open_ at_
    rw [lookup_insert] at at_
    split at at_
    · next equal => exact Or.inl ⟨equal,(Option.some.inj at_).symm⟩
    · exact Or.inr at_
  refine ⟨fun id => ?_,fun other open_ at_ => ?_,fun first second one two atFirst atSecond equal => ?_,
    fun other open_ at_ => ?_,fun id bound => ?_⟩
  · exact (wires id).symm ▸ valid.tracked id
  · rcases lookup other open_ at_ with ⟨_,rfl⟩ | old
    · have tracked := valid.tracked server.nextConnectionId
      have empty := valid.fresh server.nextConnectionId (le_refl _)
      rw [empty] at tracked
      have none : jobsOf held server server.nextConnectionId = [] :=
        List.eq_nil_iff_forall_not_mem.mpr fun job member => by cases tracked.known job member
      change Consistent _ (wire server.nextConnectionId (server.trace ++ _)) (jobsOf held server server.nextConnectionId) _
      rw [wires,empty,none]
      exact consistent_new config server.nextConnectionId now
    · exact (wires open_.id).symm ▸ valid.consistent other open_ old
  · rcases lookup first one atFirst with ⟨here,rfl⟩ | old
    · rcases lookup second two atSecond with ⟨there,_⟩ | old'
      · rw [here,there]
      · have bound := valid.below second two old'
        exact absurd equal.symm (Nat.ne_of_lt bound)
    · rcases lookup second two atSecond with ⟨_,rfl⟩ | old'
      · have bound := valid.below first one old
        exact absurd equal (Nat.ne_of_lt bound)
      · exact valid.unique _ _ _ _ old old' equal
  · rcases lookup other open_ at_ with ⟨_,rfl⟩ | old
    · exact Nat.lt_succ_self _
    · exact Nat.lt_succ_of_lt (valid.below other open_ old)
  · exact (wires id).trans (valid.fresh id (Nat.le_of_succ_le bound))

theorem valid_initial (config : ServerConfig) : Valid config [] (ServerState.initial config) := by
  have none : ∀ fd connection, (ServerState.initial config).connections.lookup fd = some connection → False := by
    intro fd connection found
    cases found
  refine ⟨fun id => tracked_empty _,fun fd connection found => (none _ _ found).elim,
    fun fd _ _ _ found => (none _ _ found).elim,fun fd connection found => (none _ _ found).elim,fun _ _ => rfl⟩

end NovaCache.Server
