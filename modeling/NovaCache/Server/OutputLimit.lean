import NovaCache.Server.Connections

/-! The size of the output of a connection. Responses are appended only as far as the limit
allows, and a protocol error without looking at it, but only to a connection that is not
closing yet. -/
namespace NovaCache.Server
open Protocol Interaction

def Event.isErrorOf (id : Nat) : Event → Bool
  | .protocolError other => decide (other = id)
  | _ => false

/-- The error frames that were appended to the output of a connection. -/
def errorFrames (id : Nat) (trace : List Event) : Nat := trace.countP (Event.isErrorOf id)

/-- A difference of unsigned numbers, which has no value below zero. -/
def subtract (whole part : Nat) : Option Nat := if part ≤ whole then some (whole - part) else none

/-- The loop of `apply_completion` as it evaluates its condition: the difference is taken only
if the output is within the limit. -/
def flushChecked (config : ServerConfig) : Nat → Connection → Option Connection
  | 0, connection => some connection
  | bound+1, connection =>
    match connection.pendingResponses.lookup connection.nextResponseSeq with
    | none => some connection
    | some payload => do
      let exceeds ←
        if connection.output.length > config.maxOutputBufferBytes then some true
        else (subtract config.maxOutputBufferBytes connection.output.length).map fun room => decide (payload.length > room)
      if exceeds then some {connection with closing := true, readClosed := true, pendingResponses := ∅}
      else flushChecked config bound {connection with
        output := connection.output ++ payload
        pendingResponses := connection.pendingResponses.erase connection.nextResponseSeq
        nextResponseSeq := connection.nextResponseSeq + 1}

/-- The output of a connection that is not closing is within the limit, and that of a closing
one exceeds it by an error frame at most. -/
structure Fits (config : ServerConfig) (connection : Connection) : Prop where
  active : connection.closing = false → connection.output.length ≤ config.maxOutputBufferBytes
  total : connection.output.length ≤ config.maxOutputBufferBytes + protocolErrorFrame.length

variable {config : ServerConfig} {place later : Position} {server next : ServerState} {fd id : Nat}
  {current changed connection : Connection} {events trace : List Event} {held : List Job}

theorem flushChecked_eq (config : ServerConfig) (bound : Nat) (connection : Connection) :
    flushChecked config bound connection = some (flushPending config bound connection) := by
  induction bound generalizing connection with
  | zero => rfl
  | succ bound ih =>
    unfold flushChecked flushPending
    cases connection.pendingResponses.lookup connection.nextResponseSeq with
    | none => rfl
    | some payload =>
      dsimp only
      by_cases large : connection.output.length > config.maxOutputBufferBytes
      · rw [if_pos large,if_pos (Or.inl large)]
        rfl
      · have room : subtract config.maxOutputBufferBytes connection.output.length =
            some (config.maxOutputBufferBytes - connection.output.length) := if_pos (Nat.not_lt.mp large)
        rw [if_neg large,room]
        by_cases long : payload.length > config.maxOutputBufferBytes - connection.output.length
        · rw [if_pos (Or.inr long)]
          simp [long]
        · rw [if_neg (not_or.mpr ⟨large,long⟩),← ih]
          simp [long]

/-- A response is appended only within the limit. -/
theorem flushPending_output (config : ServerConfig) (bound : Nat) (connection : Connection) :
    (flushPending config bound connection).output = connection.output ∨
      (flushPending config bound connection).output.length ≤ config.maxOutputBufferBytes := by
  induction bound generalizing connection with
  | zero => exact Or.inl rfl
  | succ bound ih =>
    unfold flushPending
    split
    · exact Or.inl rfl
    · next payload turn =>
      split
      · exact Or.inl rfl
      · next within =>
        rw [not_or] at within
        refine Or.inr ?_
        rcases ih {connection with
          output := connection.output ++ payload
          pendingResponses := connection.pendingResponses.erase connection.nextResponseSeq
          nextResponseSeq := connection.nextResponseSeq + 1} with same | fits
        · rw [same,List.length_append]
          omega
        · exact fits

theorem Fits.flush (fits : Fits config connection) (bound : Nat) : Fits config (flushPending config bound connection) := by
  rcases flushPending_output config bound connection with same | small
  · refine ⟨fun open_ => ?_,same ▸ fits.total⟩
    rw [same]
    apply fits.active
    rcases (flushPending_flushed config bound connection).closes with kept | closed
    · exact kept.1.symm.trans open_
    · cases open_.symm.trans closed.1
  · exact ⟨fun _ => small,Nat.le_add_right_of_le small⟩

theorem Fits.accept (fits : Fits config connection) (completion : Completion) :
    Fits config (connection.accept completion) :=
  ⟨fits.active,fits.total⟩

theorem Fits.fail (fits : Fits config connection) (active : connection.closing = false) : Fits config connection.fail := by
  refine ⟨nofun,?_⟩
  have within := fits.active active
  change (connection.output ++ protocolErrorFrame).length ≤ _
  rw [List.length_append]
  omega

theorem Change.fits {parsing : Option Nat} (change : Change parsing current events changed)
    (fits : Fits config current) : Fits config changed := by
  cases change with
  | register | note | block | endBusy => exact ⟨fits.active,fits.total⟩
  | send count =>
    have shorter : (current.output.drop count).length ≤ current.output.length := by simp
    exact ⟨fun active => shorter.trans (fits.active active),shorter.trans fits.total⟩
  | breaks => exact ⟨nofun,Nat.zero_le _⟩
  | refuse active =>
    have advanced : Fits config current.advance := ⟨fits.active,fits.total⟩
    exact advanced.fail active
  | endInside active => exact fits.fail active
  | endIdle => exact ⟨nofun,fits.total⟩

theorem Deed.fits (deed : Deed config place server fd current later events changed) (fits : Fits config current) :
    Fits config changed := by
  cases deed with
  | change change => exact change.fits fits
  | apply completion now =>
    have flushed := (fits.accept completion).flush ((current.accept completion).pendingResponses.entries.length + 1)
    exact ⟨flushed.active,flushed.total⟩
  | _ => exact ⟨fits.active,fits.total⟩

theorem Reached.fits (reached : Reached config place server) :
    ∀ fd connection, server.connections.lookup fd = some connection → Fits config connection := by
  apply reached.each fun connection _ => Fits config connection
  · exact fun _ _ _ => ⟨fun _ => Nat.zero_le _,Nat.zero_le _⟩
  · exact fun _ _ _ fits => fits
  · exact fun _ _ _ _ _ _ _ deed => deed.fits

theorem errorFrames_append (id : Nat) (trace events : List Event) :
    errorFrames id (trace ++ events) = errorFrames id trace + errorFrames id events := List.countP_append

theorem errorFrames_none (calm : ∀ event ∈ events, event.isErrorOf id = false) (trace : List Event) :
    errorFrames id (trace ++ events) = errorFrames id trace := by
  rw [errorFrames_append,errorFrames,errorFrames,Nat.add_eq_left,List.countP_eq_zero]
  intro event member
  rw [calm event member]
  exact Bool.false_ne_true

theorem Deed.active (deed : Deed config place server fd current later events changed) (active : changed.closing = false) :
    current.closing = false := by
  cases deed with
  | change change => cases change <;> first | exact active | cases active
  | apply completion now =>
    rcases (respond_flushed config completion now current).closes with kept | closed
    · exact kept.1.symm.trans active
    · cases active.symm.trans closed.1
  | _ => exact active

/-- A step appends no error frame, or one to a connection that is not closing yet. -/
theorem Change.frames {parsing : Option Nat} (change : Change parsing current events changed) :
    (∀ id, ∀ event ∈ events, event.isErrorOf id = false) ∨ current.closing = false ∧ changed.closing = true ∧
      ∀ id, errorFrames id events = if current.id = id then 1 else 0 := by
  cases change with
  | refuse active | endInside active =>
    refine Or.inr ⟨active,rfl,fun id => ?_⟩
    by_cases mine : current.id = id <;> simp [errorFrames,Event.isErrorOf,mine]
  | _ => exact Or.inl fun id => by simp [Event.isErrorOf]

theorem Move.frames (move : Move config place server later next) :
    (∀ id, errorFrames id next.trace = errorFrames id server.trace) ∨
    ∃ fd current changed events, server.connections.lookup fd = some current ∧ current.closing = false ∧
      changed.closing = true ∧ next = server.put fd changed events ∧
      ∀ id, errorFrames id next.trace = errorFrames id server.trace + if current.id = id then 1 else 0 := by
  cases move with
  | take =>
    obtain ⟨events,grown,started⟩ := take_trace server
    refine Or.inl fun id => ?_
    rw [grown]
    refine errorFrames_none (fun event member => ?_) _
    obtain ⟨_,_,rfl⟩ := started event member
    rfl
  | change found _ change =>
    rcases change.frames with calm | ⟨active,closing,once⟩
    · exact Or.inl fun id => errorFrames_none (calm id) _
    · refine Or.inr ⟨_,_,_,_,found,active,closing,rfl,fun id => ?_⟩
      rw [ServerState.put,errorFrames_append,once]
  | apply =>
    refine Or.inl fun id => errorFrames_none (List.forall_mem_append.mpr ⟨List.forall_mem_singleton.mpr rfl,?_⟩) _
    intro event member
    rw [overflow_own _ _ event member]
    rfl
  | stop | parsed | approach | read | discard | drain | widen | release => exact Or.inl fun _ => rfl
  | _ => exact Or.inl fun id => errorFrames_none (List.forall_mem_singleton.mpr rfl) _

/-- No connection has more than one error frame, and one that is not closing has none. -/
structure FailedOnce (server : ServerState) : Prop where
  once : ∀ id, errorFrames id server.trace ≤ 1
  active : ∀ fd connection, server.connections.lookup fd = some connection → connection.closing = false →
    errorFrames connection.id server.trace = 0
  fresh : ∀ id, server.nextConnectionId ≤ id → errorFrames id server.trace = 0

theorem FailedOnce.step (failed : FailedOnce server) (valid : Valid config held server)
    (move : Move config place server later next) : FailedOnce next := by
  rcases move.frames with same | ⟨fd,current,changed,events,found,active,closing,rfl,grown⟩
  · refine ⟨fun id => same id ▸ failed.once id,fun fd connection found active => ?_,fun id above => ?_⟩
    · rw [same]
      obtain ⟨events,_,cases⟩ := move.deed valid found
      rcases cases with ⟨old,_⟩ | ⟨current,old,_,deed⟩ | ⟨now,rfl,_⟩
      · exact failed.active fd connection old active
      · rw [deed.own.1]
        exact failed.active fd current old (deed.active active)
      · exact failed.fresh _ (Nat.le_refl _)
    · rw [same]
      exact failed.fresh id (move.identifiers.trans above)
  · have none := failed.active fd current found active
    refine ⟨fun id => ?_,fun other connection at_ open_ => ?_,fun id above => ?_⟩
    · rw [grown]
      split
      · next mine => rw [← mine,none]
      · exact failed.once id
    · rw [ServerState.put,lookup_insert] at at_
      split at at_
      · cases at_
        cases closing.symm.trans open_
      · next different =>
        have another : current.id ≠ connection.id := fun mine => different (valid.unique _ _ _ _ at_ found mine.symm)
        rw [grown,if_neg another]
        exact failed.active other connection at_ open_
    · have another : current.id ≠ id := Nat.ne_of_lt (Nat.lt_of_lt_of_le (valid.below fd current found) above)
      rw [grown,if_neg another]
      exact failed.fresh id above

theorem Reached.failedOnce (reached : Reached config place server) : FailedOnce server := by
  induction reached with
  | start => exact ⟨fun _ => Nat.zero_le _,fun _ _ found => (initial_empty found).elim,fun _ _ => rfl⟩
  | next before move ih => exact ih.step before.valid move

/-- At every moment of every run, and behind every turn of the loop that moves responses to the
output, the output of a connection exceeds the limit by the 21 bytes of an error frame at most,
and the loop takes no difference below zero; and no connection is ever given a second error
frame. -/
theorem output_bounded (config : ServerConfig) (inputs : List Input) :
    (∀ fd connection, (stateAfter config inputs).connections.lookup fd = some connection →
      connection.output.length ≤ config.maxOutputBufferBytes + 21 ∧
      ∀ completion turns,
        (flushPending config turns (connection.accept completion)).output.length ≤ config.maxOutputBufferBytes + 21 ∧
        flushChecked config turns (connection.accept completion) =
          some (flushPending config turns (connection.accept completion))) ∧
    ∀ id, errorFrames id (stateAfter config inputs).trace ≤ 1 := by
  obtain ⟨place,reached⟩ := run_moment config inputs
  refine ⟨fun fd connection found => ?_,reached.failedOnce.once⟩
  have fits := reached.fits fd connection found
  refine ⟨fits.total,fun completion turns => ⟨?_,flushChecked_eq config turns _⟩⟩
  exact ((fits.accept completion).flush turns).total

/-- No response fits at all, and a byte that begins no frame arrives. -/
def tight : ServerConfig := ⟨1,10,2,0,0,.default,3⟩

def refusing : List Input := accepting 7 ++ [.others [],.received [0x3F],.clock 0,.others []]

theorem output_bounded_tight : ∃ connection, (stateAfter tight refusing).connections.lookup 7 = some connection ∧
    connection.output.length = tight.maxOutputBufferBytes + 21 ∧
    (∀ completion turns,
      (flushPending tight turns (connection.accept completion)).output.length ≤ tight.maxOutputBufferBytes + 21 ∧
      flushChecked tight turns (connection.accept completion) =
        some (flushPending tight turns (connection.accept completion))) ∧
    errorFrames 1 (stateAfter tight refusing).trace = 1 := by
  obtain ⟨bounded,once⟩ := output_bounded tight refusing
  have seen : ((stateAfter tight refusing).connections.lookup 7).any (fun connection =>
      decide (connection.output.length = tight.maxOutputBufferBytes + 21)) = true := by decide +kernel
  obtain ⟨connection,found,reached⟩ := (Option.any_eq_true _ _).mp seen
  have appended : 1 ≤ errorFrames 1 (stateAfter tight refusing).trace := by decide +kernel
  exact ⟨connection,found,of_decide_eq_true reached,(bounded 7 connection found).2,Nat.le_antisymm (once 1) appended⟩

end NovaCache.Server
