import NovaCache.Server.State

/-! The procedures of the I/O thread, and the steps of the others. A reference to a
connection is its descriptor, and following one that is gone is undefined. The reply of a
command is an input, so the commands stand for any handlers. -/
namespace NovaCache.Server
open Protocol Interaction Proc

/-- `ERR Protocol error` -/
def protocolErrorText : Bytes :=
  [0x45,0x52,0x52,0x20,0x50,0x72,0x6F,0x74,0x6F,0x63,0x6F,0x6C,0x20,0x65,0x72,0x72,0x6F,0x72]

def protocolErrorFrame : Bytes := [minus] ++ protocolErrorText ++ crlf

example : encode (.error protocolErrorText) = .ok protocolErrorFrame := rfl

def isCommandRequest : RespValue → Bool
  | .array (some items) => !items.isEmpty && items.all fun
    | .bulk (some _) => true
    | _ => false
  | _ => false

def complete (job : Job) (reply : RespValue) (payload : Bytes) (server : ServerState) : ServerState :=
  {server with
    completions := server.completions ++ [⟨job.connectionId,job.sequence,payload⟩]
    trace := server.trace ++ [.executed job.connectionId job.sequence job.request reply]}

/-- A worker takes the first job if a thread is free. -/
def take (server : ServerState) : ServerState :=
  match server.pool.jobs with
  | [] => server
  | job::jobs =>
    if server.pool.running.length ≥ server.pool.threadCount then server
    else {server with
      pool := {server.pool with jobs := jobs, running := server.pool.running ++ [job]}
      trace := server.trace ++ [.started job.connectionId job.sequence]}

def record (event : Event) : ServerProc Unit :=
  alter fun server => {server with trace := server.trace ++ [event]}

def throwFrom {Value : Type} (cause : Cause) : ServerProc Value := do
  record (.raised cause)
  raise

/-- An exception in a worker ends the process. -/
def otherStep : OtherStep → ServerProc Unit
  | .take => alter take
  | .finish index reply => do
    let server ← current
    match server.pool.running[index]? with
    | none => return ()
    | some job =>
      match encode reply with
      | .error _ => throwFrom .command
      | .ok payload => alter fun server => complete job reply payload {server with pool := server.pool.release index}
  | .throw => throwFrom .command
  | .stop => alter fun server => {server with stopping := true}

def interleave : ServerProc Unit := do
  match ← input with
  | .others steps => forEach otherStep steps
  | _ => pause

def steadyNow : ServerProc Int := do
  match ← input with
  | .clock now => return now
  | _ => pause

/-- A call of the system or the reactor that returns nothing but may throw. -/
def systemCall : ServerProc Unit := do
  match ← input with
  | .succeeded => return ()
  | .failed => throwFrom .call
  | _ => pause

def stoppingLoad : ServerProc Bool := do
  interleave
  return (← current).stopping

def queueSaturated (config : ServerConfig) : ServerProc Bool := do
  interleave
  return decide ((← current).pool.queuedJobs ≥ config.workerQueueLimit)

def connection (fd : Nat) : ServerProc Connection := do
  match (← current).connections.lookup fd with
  | none => undefined
  | some connection => return connection

def contains (fd : Nat) : ServerProc Bool := do
  return ((← current).connections.lookup fd).isSome

def update (fd : Nat) (change : Connection → Connection) (events : Connection → List Event) : ServerProc Unit := do
  let found ← connection fd
  alter fun server => {server with
    connections := server.connections.insert fd (change found)
    trace := server.trace ++ events found}

def closeConnection (fd : Nat) : ServerProc Unit :=
  alter fun server =>
    match server.connections.lookup fd with
    | none => server
    | some connection => {server with
        connections := server.connections.erase fd
        trace := server.trace ++ [.closed connection.id]}

/-- The connection at a descriptor, if there is one, is kept in the trace. -/
def look (place : Place) (fd : Nat) : ServerProc Unit :=
  alter fun server =>
    match server.connections.lookup fd with
    | none => server
    | some found => {server with
        connections := server.connections.insert fd found
        trace := server.trace ++ [.met place found]}

/-- A send and the removal of what was sent. -/
def writeStep (fd : Nat) : ServerProc Bool := do
  let found ← connection fd
  if found.output.isEmpty then return false
  else match ← input with
    | .blocked => return false
    | .closed => do
      update fd (fun connection => {connection with closing := true, output := []})
        (fun connection => [.sendClosed connection.id])
      return false
    | .sent count =>
      if count = 0 ∨ count > found.output.length then pause
      else do
        let now ← steadyNow
        update fd (fun connection => {connection with output := connection.output.drop count, lastActivity := now})
          (fun connection => [.sent connection.id (connection.output.take count)])
        return true
    | .failed => throwFrom (.send found.id)
    | _ => pause

def writeConnection (fd : Nat) : ServerProc Unit := loop (writeStep fd)

/-- The job on the I/O thread, when the pool does not take it. -/
def runInline (job : Job) : ServerProc Unit := do
  record (.started job.connectionId job.sequence)
  match ← input with
  | .reply reply =>
    match encode reply with
    | .error _ => throwFrom .command
    | .ok payload => alter (complete job reply payload)
  | .failed => throwFrom .command
  | _ => pause

def submit (job : Job) : ServerProc Unit := do
  interleave
  let server ← current
  match server.pool.trySubmit job with
  | (true,pool) => alter fun server => {server with
      pool := pool
      trace := server.trace ++ [.submitted job.connectionId job.sequence]}
  | (false,_) => runInline job

def launchStrand (fd : Nat) : ServerProc Unit := do
  let found ← connection fd
  match found.commandQueue with
  | [] =>
    update fd (fun connection => {connection with strandRunning := false})
      (fun connection => [.strandEnded connection.id])
  | item::rest => do
    update fd (fun connection => {connection with commandQueue := rest, strandRunning := true})
      (fun connection => [.launched connection.id item.sequence])
    submit ⟨found.id,item.sequence,item.request⟩

/-- The parser behind the request is stored together with the queued command. -/
def enqueueCommand (fd : Nat) (parser : Parser) (request : RespValue) : ServerProc Unit := do
  update fd (fun connection => {connection with
      parser := parser
      nextRequestSeq := connection.nextRequestSeq + 1
      inflight := connection.inflight + 1
      commandQueue := connection.commandQueue ++ [⟨connection.nextRequestSeq,request⟩]})
    (fun connection => [.parsed connection.id request])
  if (← connection fd).strandRunning then return ()
  else launchStrand fd

def failProtocol (fd : Nat) : ServerProc Unit :=
  update fd (fun connection => {connection with
      output := connection.output ++ protocolErrorFrame
      closing := true
      readClosed := true})
    (fun connection => [.met .protocolError connection,.protocolError connection.id])

/-- The parser is behind the request that is no command. -/
def refuseRequest (fd : Nat) (parser : Parser) : ServerProc Unit := do
  update fd (fun connection => {connection with parser := parser}) (fun _ => [])
  failProtocol fd

def queueStep (config : ServerConfig) (fd : Nat) : ServerProc Bool := do
  let saturated ← queueSaturated config
  let found ← connection fd
  if saturated ∧ found.inflight > 0 then do
    update fd id (fun connection => [.met .parsingStopped connection])
    return false
  else match found.parser.next with
    | (.incomplete,_) => return false
    | (.complete request,parser) =>
      if isCommandRequest request then do
        enqueueCommand fd parser request
        return true
      else do
        refuseRequest fd parser
        return false
    | (.failed _,_) => do
      failProtocol fd
      return false

def queueParsedCommands (config : ServerConfig) (fd : Nat) : ServerProc Unit := loop (queueStep config fd)

def readEnd (fd : Nat) : ServerProc Unit := do
  update fd (fun connection => {connection with readClosed := true})
    (fun connection => [.met .endOfStream connection,.endOfStream connection.id])
  let found ← connection fd
  if found.parser.buffer.length ≠ 0 then failProtocol fd
  else if found.inflight = 0 ∧ found.output.isEmpty then
    update fd (fun connection => {connection with closing := true}) (fun _ => [])
  else return ()

/-- One `recv` into the buffer of 8192 bytes. -/
def readStep (config : ServerConfig) (fd : Nat) : ServerProc Bool := do
  if ← queueSaturated config then do
    update fd id (fun connection => [.met .readingStopped connection])
    return false
  else match ← input with
    | .blocked => do
      update fd id (fun connection => [.readBlocked connection.id])
      return false
    | .closed => do
      readEnd fd
      return false
    | .received bytes =>
      if bytes.length = 0 ∨ bytes.length > 8192 then pause
      else do
        let now ← steadyNow
        let found ← connection fd
        let (status,parser) := found.parser.feed bytes
        update fd (fun connection => {connection with lastActivity := now, parser := parser})
          (fun connection => [.received connection.id bytes])
        if status ≠ .incomplete then do
          failProtocol fd
          return false
        else do
          queueParsedCommands config fd
          return !(← connection fd).closing
    | .failed => do
      let found ← connection fd
      throwFrom (.receive found.id)
    | _ => pause

def readConnection (config : ServerConfig) (fd : Nat) : ServerProc Unit := do
  let found ← connection fd
  if found.readClosed ∨ found.closing then return ()
  else loop (readStep config fd)

/-- The pool is asked only if the connection could be read at all. -/
def computeInterest (config : ServerConfig) (fd : Nat) : ServerProc Interest := do
  let found ← connection fd
  if found.readClosed ∨ found.closing then return ⟨false,!found.output.isEmpty⟩
  else do
    let saturated ← queueSaturated config
    when saturated (update fd id (fun connection => [.met .interestWithheld connection]))
    return ⟨!saturated && decide (found.output.length < config.maxOutputBufferBytes),!found.output.isEmpty⟩

def registerInterest (fd : Nat) (interest : Interest) : ServerProc Unit := do
  if interest ≠ (← connection fd).interest then do
    update fd (fun connection => {connection with interest := interest}) (fun _ => [])
    systemCall
  else return ()

/-- The connection is left to wait for a report that it is readable. -/
def await (fd : Nat) (interest : Interest) : ServerProc Unit :=
  when interest.read (update fd id (fun connection => [.met .awaiting connection]))

def updateInterest (config : ServerConfig) (fd : Nat) : ServerProc Unit := do
  let interest ← computeInterest config fd
  let enablingRead := interest.read && !(← connection fd).interest.read
  registerInterest fd interest
  if enablingRead then do
    readConnection config fd
    update fd id (fun connection => [.met .readAgain connection])
    let again ← computeInterest config fd
    registerInterest fd again
    await fd again
  else await fd interest

/-- The loop that moves responses in turn to the output. It ends after as many iterations
as there are pending responses. -/
def flushPending (config : ServerConfig) : Nat → Connection → Connection
  | 0, connection => connection
  | bound+1, connection =>
    match connection.pendingResponses.lookup connection.nextResponseSeq with
    | none => connection
    | some payload =>
      if connection.output.length > config.maxOutputBufferBytes ∨
          payload.length > config.maxOutputBufferBytes - connection.output.length then
        {connection with closing := true, readClosed := true, pendingResponses := ∅}
      else flushPending config bound {connection with
        output := connection.output ++ payload
        pendingResponses := connection.pendingResponses.erase connection.nextResponseSeq
        nextResponseSeq := connection.nextResponseSeq + 1}

/-- `emplace` keeps an entry that exists. -/
def Connection.accept (connection : Connection) (completion : Completion) : Connection :=
  {connection with
    pendingResponses :=
      if completion.sequence ∈ connection.pendingResponses then connection.pendingResponses
      else connection.pendingResponses.insert completion.sequence completion.payload
    inflight := connection.inflight - 1}

def Connection.respond (config : ServerConfig) (completion : Completion) (now : Int) (connection : Connection) :
    Connection :=
  let accepted := connection.accept completion
  {flushPending config (accepted.pendingResponses.entries.length + 1) accepted with lastActivity := now}

def findConnection (server : ServerState) (id : Nat) : Option Nat :=
  (server.connections.entries.find? (fun entry => entry.2.id = id)).map Sigma.fst

def discardCompletion : ServerProc Unit :=
  alter fun server => {server with draining := server.draining.tail}

def finishIfIdle (config : ServerConfig) (fd : Nat) : ServerProc Unit := do
  let found ← connection fd
  if found.closing ∧ found.output.isEmpty ∧ found.inflight = 0 then do
    look .finished fd
    closeConnection fd
  else updateInterest config fd

/-- The per-connection strand goes on, so that pipelined commands stay ordered. -/
def continueStrand (fd : Nat) : ServerProc Unit := do
  if (← connection fd).commandQueue.isEmpty then
    update fd (fun connection => {connection with strandRunning := false})
      (fun connection => [.strandEnded connection.id])
  else launchStrand fd

/-- The limit of the output closes the connection. -/
def Connection.overflow (connection answered : Connection) : List Event :=
  if answered.closing && !connection.closing then [.overflowed connection.id] else []

/-- The completion leaves the batch when its connection has taken it. -/
def applyCompletion (config : ServerConfig) (completion : Completion) : ServerProc Unit := do
  match findConnection (← current) completion.connectionId with
  | none => discardCompletion
  | some fd => do
    let now ← steadyNow
    let found ← connection fd
    alter fun server => {server with
      connections := server.connections.insert fd (found.respond config completion now)
      draining := server.draining.tail
      trace := server.trace ++ ([.applied found.id completion.sequence] ++
        found.overflow (found.respond config completion now))}
    when ((← connection fd).output ≠ []) (writeConnection fd)
    if ← contains fd then do
      continueStrand fd
      finishIfIdle config fd
    else return ()

def drainStep (config : ServerConfig) : ServerProc Bool := do
  interleave
  let batch := (← current).completions
  if batch.isEmpty then return false
  else do
    alter fun server => {server with completions := [], draining := server.completions}
    forEach (applyCompletion config) batch
    return true

def drainCompletions (config : ServerConfig) : ServerProc Unit := loop (drainStep config)

def Connection.new (config : ServerConfig) (id : Nat) (now : Int) : Connection :=
  ⟨id,⟨true,false⟩,[],Parser.new config.parserLimits,0,0,∅,[],false,0,false,false,now⟩

/-- A new descriptor is none of those in use. -/
def acceptStep (config : ServerConfig) : ServerProc Bool := do
  if ← stoppingLoad then return false
  else if (← current).connections.entries.length ≥ config.maxConnections then do
    record .acceptFull
    return false
  else match ← input with
    | .blocked => do
      record .acceptBlocked
      return false
    | .accepted fd => do
      if (← contains fd) ∨ fd = config.listener then pause
      else do
        systemCall
        let now ← steadyNow
        systemCall
        alter fun server => {server with
          connections := server.connections.insert fd (Connection.new config server.nextConnectionId now)
          nextConnectionId := server.nextConnectionId + 1
          trace := server.trace ++ [.accepted server.nextConnectionId fd]}
        readConnection config fd
        drainCompletions config
        when (← contains fd) (finishIfIdle config fd)
        return true
    | .failed => throwFrom .call
    | _ => pause

def acceptReady (config : ServerConfig) : ServerProc Unit := loop (acceptStep config)

def handleConnectionEvent (config : ServerConfig) (event : FiredEvent) : ServerProc Unit := do
  if ← contains event.fd then
    if event.error then closeConnection event.fd
    else do
      when (event.ready.read ∨ event.hangup) do
        readConnection config event.fd
        drainCompletions config
      if ← contains event.fd then do
        when event.ready.write (writeConnection event.fd)
        when (← contains event.fd) (finishIfIdle config event.fd)
      else return ()
  else return ()

def idleConnections (config : ServerConfig) (now : Int) (server : ServerState) : List Nat :=
  (server.connections.entries.filter fun entry =>
    entry.2.lastActivity < now - config.idleTimeout * 1000000000 ∧ entry.2.inflight = 0).map Sigma.fst

def closeIdleConnections (config : ServerConfig) : ServerProc Unit := do
  if config.idleTimeout ≤ 0 then return ()
  else do
    let now ← steadyNow
    forEach (fun fd => do look (.idle now) fd; closeConnection fd) (idleConnections config now (← current))

def handleEvent (config : ServerConfig) (event : FiredEvent) : ServerProc Unit := do
  record (.reported event)
  if event.fd = config.listener then acceptReady config
  else handleConnectionEvent config event

/-- One iteration of `run`; expiry, snapshots and timeouts touch nothing of this state. -/
def runStep (config : ServerConfig) : ServerProc Bool := do
  if ← stoppingLoad then return false
  else match ← input with
    | .ready events =>
      if ← stoppingLoad then return false
      else do
        drainCompletions config
        forEach (handleEvent config) events
        drainCompletions config
        closeIdleConnections config
        return true
    | .failed => throwFrom .call
    | _ => pause

def run (config : ServerConfig) : ServerProc Unit := do
  loop (runStep config)
  forEach (fun fd => do look .shutdown fd; closeConnection fd) (← current).connections.keys
  interleave

/-! Each loop of the server reads an input before it goes round, so that its bound is
never reached and it is the loop of the source. -/
section loops
variable (config : ServerConfig) (fd : Nat)

theorem reads_interleave : interleave.Reads fun _ => True := reads_input.before

theorem reads_queueSaturated : (queueSaturated config).Reads fun _ => True := reads_interleave.before

theorem reads_stoppingLoad : stoppingLoad.Reads fun _ => True := reads_interleave.before

theorem writeConnection_unfold :
    writeConnection fd = do if ← writeStep fd then writeConnection fd else return () := by
  refine loop_unfold (Reads.after fun found => ?_)
  split
  · exact reads_pure Bool.false_ne_true
  · exact reads_input.before

theorem queueParsedCommands_unfold : queueParsedCommands config fd =
    do if ← queueStep config fd then queueParsedCommands config fd else return () :=
  loop_unfold (reads_queueSaturated config).before

theorem readLoop_unfold : loop (readStep config fd) =
    do if ← readStep config fd then loop (readStep config fd) else return () :=
  loop_unfold (reads_queueSaturated config).before

theorem drainCompletions_unfold : drainCompletions config =
    do if ← drainStep config then drainCompletions config else return () :=
  loop_unfold reads_interleave.before

theorem acceptReady_unfold : acceptReady config =
    do if ← acceptStep config then acceptReady config else return () :=
  loop_unfold reads_stoppingLoad.before

theorem runLoop_unfold : loop (runStep config) = do if ← runStep config then loop (runStep config) else return () :=
  loop_unfold reads_stoppingLoad.before

end loops

end NovaCache.Server
