import NovaCache.AssociationList
import NovaCache.Server.Connections

/-! Clients that wait in the backlog of the listener. The reactor reports the listener once
for an arrival, and `accept_ready` stops at the limit of connections; nothing but the next
report runs it again. -/
namespace NovaCache.Server
open Protocol Interaction AssociationList

variable {config : ServerConfig} {place later : Position} {server next : ServerState} {events trace : List Event}

/-- The event leaves the listener as it is. -/
def Unheard (listener : Nat) : Event → Prop
  | .reported event => event.fd ≠ listener
  | .acceptBlocked | .acceptFull | .closed _ => False
  | _ => True

theorem backlog_append (listener : Nat) (trace events : List Event) :
    backlog listener (trace ++ events) = events.foldl (Backlog.step listener) (backlog listener trace) := List.foldl_append

theorem Unheard.step {listener : Nat} {event : Event} (unheard : Unheard listener event) (before : Backlog) :
    before.step listener event = before := by
  cases event with
  | reported event => exact if_neg unheard
  | acceptBlocked | acceptFull | closed => exact unheard.elim
  | _ => rfl

theorem backlog_unheard {listener : Nat} (unheard : ∀ event ∈ events, Unheard listener event) (trace : List Event) :
    backlog listener (trace ++ events) = backlog listener trace := by
  rw [backlog_append]
  exact foldl_calm (fun event member => (unheard event member).step) _

/-- What a step means for the listener and for the number of connections. -/
inductive Heard (config : ServerConfig) (place : Position) (server : ServerState) (later : Position) (next : ServerState) : Prop
  | nothing (events : List Event) (grown : next.trace = server.trace ++ events)
      (unheard : ∀ event ∈ events, Unheard config.listener event)
      (size : next.connections.entries.length = server.connections.entries.length)
      (older : config.listener ∈ later.attended → config.listener ∈ place.attended)
      (left : config.listener ∈ place.attended → config.listener ∈ later.attended ∨ next.stopping = true)
  | accepted (id fd : Nat) (grown : next.trace = server.trace ++ [.accepted id fd])
      (size : next.connections.entries.length = server.connections.entries.length + 1)
      (room : server.connections.entries.length < config.maxConnections)
      (before : config.listener ∈ place.attended) (after : config.listener ∈ later.attended)
  | closed (id : Nat) (grown : next.trace = server.trace ++ [.closed id])
      (size : next.connections.entries.length + 1 = server.connections.entries.length)
      (same : later.attended = place.attended)
  | blocked (grown : next.trace = server.trace ++ [.acceptBlocked])
      (size : next.connections.entries.length = server.connections.entries.length)
      (after : config.listener ∉ later.attended)
  | full (grown : next.trace = server.trace ++ [.acceptFull])
      (size : next.connections.entries.length = server.connections.entries.length)
      (limit : server.connections.entries.length ≥ config.maxConnections) (after : config.listener ∉ later.attended)
  | reported (event : FiredEvent) (grown : next.trace = server.trace ++ [.reported event])
      (here : event.fd = config.listener)
      (size : next.connections.entries.length = server.connections.entries.length)
      (after : config.listener ∈ later.attended)

theorem Change.unheard {parsing : Option Nat} {connection changed : Connection}
    (change : Change parsing connection events changed) (listener : Nat) :
    ∀ event ∈ events, Unheard listener event := by
  cases change <;> simp [Unheard]

theorem overflow_unheard (connection answered : Connection) (listener : Nat) :
    ∀ event ∈ connection.overflow answered, Unheard listener event := by
  unfold Connection.overflow
  split <;> simp [Unheard]

theorem Move.heard (move : Move config place server later next) : Heard config place server later next := by
  have unheard : ∀ {event}, Unheard config.listener event → ∀ other ∈ [event], Unheard config.listener other :=
    fun fine => List.forall_mem_singleton.mpr fine
  cases move with
  | take =>
    obtain ⟨events,grown,started⟩ := take_trace server
    refine .nothing events grown (fun event member => ?_) (by rw [take_connections]) id Or.inl
    obtain ⟨_,_,rfl⟩ := started event member
    trivial
  | blocked => exact .blocked rfl rfl fun inside => inside.2 rfl
  | full _ limit => exact .full rfl rfl limit fun inside => inside.2 rfl
  | report event =>
    by_cases here : event.fd = config.listener
    · exact .reported event rfl here rfl (here ▸ Set.mem_insert _ _)
    · refine .nothing _ rfl (unheard here) rfl (fun inside => ?_) fun inside => Or.inl (Set.mem_insert_of_mem _ inside)
      exact inside.resolve_left (Ne.symm here)
  | change found _ change => exact .nothing _ rfl (change.unheard _) (length_replace (mem_of_lookup found) _) id Or.inl
  | apply _ found =>
    refine .nothing _ rfl (List.forall_mem_append.mpr ⟨unheard trivial,?_⟩) (length_replace (mem_of_lookup found) _) id Or.inl
    exact overflow_unheard _ _ _
  | receive _ _ found | enqueue found | launch found | strandEnd found =>
    exact .nothing _ rfl (unheard trivial) (length_replace (mem_of_lookup found) _) id Or.inl
  | accept _ _ unused _ listening room =>
    exact .accepted _ _ rfl (length_insert (AList.lookup_eq_none.mp unused) _) room listening (Set.mem_insert_of_mem _ listening)
  | close found => exact .closed _ rfl (length_erase (mem_of_lookup found)) rfl
  | raise | finish | submit | start | complete => exact .nothing _ rfl (unheard trivial) rfl id Or.inl
  | widen more same =>
    exact .nothing [] (List.append_nil _).symm (List.forall_mem_nil _) rfl same fun inside => Or.inl (more inside)
  | release fd _ _ stopping =>
    refine .nothing [] (List.append_nil _).symm (List.forall_mem_nil _) rfl And.left fun inside => ?_
    by_cases here : config.listener = fd
    · exact Or.inr (stopping here.symm)
    · exact Or.inl ⟨inside,here⟩
  | stop | parsed | approach | read | discard | drain =>
    exact .nothing [] (List.append_nil _).symm (List.forall_mem_nil _) rfl id Or.inl

/-- The listener is attended to from its report until `accept_ready` returns, and the way it
returned says how many connections there are. -/
structure Tended (config : ServerConfig) (place : Position) (server : ServerState) : Prop where
  listening : config.listener ∈ place.attended → backlog config.listener server.trace = .pending
  pending : backlog config.listener server.trace = .pending → config.listener ∈ place.attended ∨ server.stopping = true
  bounded : server.connections.entries.length ≤ config.maxConnections
  full : backlog config.listener server.trace = .full → server.connections.entries.length ≥ config.maxConnections
  forsaken : backlog config.listener server.trace = .forsaken → server.connections.entries.length < config.maxConnections

theorem Tended.step (tended : Tended config place server) (move : Move config place server later next) :
    Tended config later next := by
  cases move.heard with
  | nothing events grown unheard size older left =>
    have same : backlog config.listener next.trace = backlog config.listener server.trace := by
      rw [grown,backlog_unheard unheard]
    refine ⟨fun inside => same.trans (tended.listening (older inside)),fun state => ?_,size ▸ tended.bounded,?_,?_⟩
    · exact (tended.pending (same.symm.trans state)).elim left fun stopping => Or.inr (move.stopping stopping)
    · rw [same,size]
      exact tended.full
    · rw [same,size]
      exact tended.forsaken
  | accepted id fd grown size room before after =>
    have state : backlog config.listener next.trace = .pending := by
      rw [grown,backlog_append]
      exact tended.listening before
    refine ⟨fun _ => state,fun _ => Or.inl after,?_,fun full => ?_,fun forsaken => ?_⟩
    · rw [size]
      exact room
    · cases state.symm.trans full
    · cases state.symm.trans forsaken
  | closed id grown size same =>
    have state : backlog config.listener next.trace =
        if backlog config.listener server.trace = .full then .forsaken else backlog config.listener server.trace := by
      rw [grown,backlog_append]
      rfl
    have bounded := tended.bounded
    -- a connection fewer than at most the limit is room, whatever the listener is at
    have room : next.connections.entries.length < config.maxConnections := by omega
    refine ⟨fun inside => ?_,fun pending => ?_,room.le,fun full => ?_,fun _ => room⟩
    · rw [state,tended.listening (same ▸ inside)]
      rfl
    · rw [state] at pending
      split at pending
      · cases pending
      · rw [same]
        exact (tended.pending pending).imp_right move.stopping
    · rw [state] at full
      split at full
      · cases full
      · next other => exact absurd full other
  | blocked grown size after =>
    have state : backlog config.listener next.trace = .drained := by
      rw [grown,backlog_append]
      rfl
    refine ⟨fun inside => absurd inside after,fun pending => ?_,size ▸ tended.bounded,fun full => ?_,fun forsaken => ?_⟩
    · cases state.symm.trans pending
    · cases state.symm.trans full
    · cases state.symm.trans forsaken
  | full grown size limit after =>
    have state : backlog config.listener next.trace = .full := by
      rw [grown,backlog_append]
      rfl
    refine ⟨fun inside => absurd inside after,fun pending => ?_,size ▸ tended.bounded,fun _ => size ▸ limit,
      fun forsaken => ?_⟩
    · cases state.symm.trans pending
    · cases state.symm.trans forsaken
  | reported event grown here size after =>
    have state : backlog config.listener next.trace = .pending := by
      rw [grown,backlog_append]
      exact if_pos here
    refine ⟨fun _ => state,fun _ => Or.inl after,size ▸ tended.bounded,fun full => ?_,fun forsaken => ?_⟩
    · cases state.symm.trans full
    · cases state.symm.trans forsaken

theorem Reached.tended (reached : Reached config place server) : Tended config place server := by
  induction reached with
  | start => exact ⟨fun inside => absurd inside (Set.notMem_empty _),nofun,Nat.zero_le _,nofun,nofun⟩
  | next _ move ih => exact ih.step move

/-- Between any two iterations of `run`: the connections are at the limit, or the last
`accept_ready` found nobody waiting, exactly if no connection has been closed behind one that
was left at the limit. -/
theorem no_client_stranded (config : ServerConfig) (rounds : List (List Input)) (server : ServerState)
    (ran : iterations config rounds = some server) (running : server.stopping = false) :
    (server.connections.entries.length ≥ config.maxConnections ∨
      backlog config.listener server.trace = .unreported ∨ backlog config.listener server.trace = .drained) ↔
        backlog config.listener server.trace ≠ .forsaken := by
  have tended := (iterations_at ran).reached.tended
  constructor
  · rintro (limit | state | state) forsaken
    · exact absurd (tended.forsaken forsaken) (Nat.not_lt.mpr limit)
    · cases state.symm.trans forsaken
    · cases state.symm.trans forsaken
  · intro kept
    cases state : backlog config.listener server.trace with
    | unreported => exact Or.inr (Or.inl rfl)
    | pending =>
      rcases tended.pending state with inside | stopping
      · exact absurd inside (Set.notMem_empty _)
      · cases running.symm.trans stopping
    | drained => exact Or.inr (Or.inr rfl)
    | full => exact Or.inl (tended.full state)
    | forsaken => exact absurd state kept

/-- One connection is allowed, and it is accepted. -/
def crowded : ServerConfig := ⟨1,1,2,1000,0,.default,3⟩

def filling : List Input := accepting 7 ++ [.others [],.blocked,.others [],.others [],.others [],.others []]

theorem no_client_stranded_crowded : ∃ server, iterations crowded [filling] = some server ∧ server.stopping = false ∧
    backlog crowded.listener server.trace ≠ .forsaken ∧ (server.connections.entries.length ≥ crowded.maxConnections ∨
      backlog crowded.listener server.trace = .unreported ∨ backlog crowded.listener server.trace = .drained) := by
  have seen : (iterations crowded [filling]).any (fun server => decide (server.stopping = false ∧
      backlog crowded.listener server.trace ≠ .forsaken)) = true := by decide +kernel
  obtain ⟨server,ran,passed⟩ := (Option.any_eq_true _ _).mp seen
  obtain ⟨running,kept⟩ := of_decide_eq_true passed
  exact ⟨server,ran,running,kept,(no_client_stranded crowded [filling] server ran running).mpr kept⟩

/-- The peer of the one connection closes its side, and then nothing is reported. -/
def vacated : List (List Input) :=
  [filling,reporting 7 ++ [.closed,.others [],.others []],[.others [],.ready [],.others [],.others [],.others []]]

/-- There is room again, but nobody asks the listener for the clients that wait. -/
theorem client_stranded : ∃ server, iterations crowded vacated = some server ∧ server.stopping = false ∧
    server.connections.entries.length < crowded.maxConnections ∧ backlog crowded.listener server.trace = .forsaken := by
  have seen : (iterations crowded vacated).any (fun server => decide (server.stopping = false ∧
      server.connections.entries.length < crowded.maxConnections ∧ backlog crowded.listener server.trace = .forsaken)) =
        true := by decide +kernel
  obtain ⟨server,ran,passed⟩ := (Option.any_eq_true _ _).mp seen
  exact ⟨server,ran,of_decide_eq_true passed⟩

end NovaCache.Server
