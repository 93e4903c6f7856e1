import NovaCache.Server.Procedures
import NovaCache.Protocol.Acceptance
import Mathlib.Data.List.Nodup
import Mathlib.Data.List.Perm.Basic

/-! What a connection may have sent, and the invariant of one connection that keeps it so.
The invariant is about the wire of the connection and its share of the jobs and
completions, and no step on another connection touches these. -/
namespace NovaCache.Server
open Protocol Interaction

/-- The command was executed once, and this encodes its reply. -/
def Answered (wire : Wire) (sequence : Nat) (payload : Bytes) : Prop :=
  ∃ request reply, wire.commands[sequence]? = some request ∧
    wire.executions.filter (fun execution => execution.1 = sequence) = [(sequence,request,reply)] ∧
    encode reply = .ok payload

/-- The replies one after another, with the error frame at some place between them. -/
def Interrupted (payloads : List Bytes) (frames : Bytes) : Prop :=
  ∃ position ≤ payloads.length,
    frames = (payloads.take position).flatten ++ protocolErrorFrame ++ (payloads.drop position).flatten

def AllAnswered (wire : Wire) (payloads : List Bytes) : Prop :=
  ∀ index payload, payloads[index]? = some payload → Answered wire index payload

/-- What was sent begins the replies to the first commands, in wire order, with at most
one error frame between them. -/
def Delivered (wire : Wire) : Prop :=
  ∃ payloads frames, AllAnswered wire payloads ∧ (frames = payloads.flatten ∨ Interrupted payloads frames) ∧
    wire.sent <+: frames

/-- No send takes bytes after one that has answered that the socket takes no more. -/
def Wire.StaysClosed (wire : Wire) : Prop := wire.resumed = false

instance (wire : Wire) : Decidable wire.StaysClosed := inferInstanceAs (Decidable (_ = _))

/-- The commands are the frames that the bytes received begin with. -/
def InWireOrder (limits : ParserLimits) (wire : Wire) : Prop :=
  ∃ parsed, Frames limits 0 wire.commands parsed ∧ parsed <+: wire.received

/-- The share of one connection in what the threads hold, whether it is open or not. -/
structure Tracked (limits : ParserLimits) (wire : Wire) (jobs : List Job) (completions : List Completion) : Prop where
  known : ∀ job ∈ jobs, wire.commands[job.sequence]? = some job.request
  executed : ∀ execution ∈ wire.executions, execution.1 < wire.commands.length
  distinct : (jobs.map Job.sequence ++ wire.executions.map Prod.fst).Nodup
  answered : ∀ completion ∈ completions, Answered wire completion.sequence completion.payload
  delivered : wire.StaysClosed → Delivered wire
  ordered : InWireOrder limits wire

structure Sending (wire : Wire) (connection : Connection) (payloads : List Bytes) (frames : Bytes) : Prop where
  count : payloads.length = connection.nextResponseSeq
  answered : AllAnswered wire payloads
  framed : frames = payloads.flatten ∨ connection.closing = true ∧ Interrupted payloads frames
  sent : if wire.broken then wire.StaysClosed → wire.sent <+: frames else wire.sent ++ connection.output = frames

structure Consistent (limits : ParserLimits) (wire : Wire) (jobs : List Job) (connection : Connection) : Prop where
  requests : connection.nextRequestSeq = wire.commands.length
  queued : ∀ item ∈ connection.commandQueue, wire.commands[item.sequence]? = some item.request
  distinct : (connection.commandQueue.map QueuedCommand.sequence ++
    (jobs.map Job.sequence ++ wire.executions.map Prod.fst)).Nodup
  pending : ∀ sequence payload, connection.pendingResponses.lookup sequence = some payload →
    Answered wire sequence payload
  sending : ∃ payloads frames, Sending wire connection payloads frames
  bounded : connection.parser.limits = limits
  room : connection.parser.buffer.length ≤ limits.maxBufferSize
  parsed : ∃ parsed, Frames limits 0 wire.commands parsed ∧ parsed <+: wire.received ∧
    (connection.closing = false → connection.parser.bufferOversized = false →
      parsed ++ connection.parser.buffer = wire.received)

variable {limits : ParserLimits} {wire : Wire} {jobs : List Job} {completions : List Completion}
  {connection : Connection}

theorem Sending.begins {payloads : List Bytes} {frames : Bytes} (sending : Sending wire connection payloads frames)
    (closed : wire.StaysClosed) : wire.sent <+: frames := by
  have sent := sending.sent
  split at sent
  · exact sent closed
  · exact ⟨_,sent⟩

theorem Consistent.delivered (consistent : Consistent limits wire jobs connection) (closed : wire.StaysClosed) :
    Delivered wire := by
  obtain ⟨payloads,frames,sending⟩ := consistent.sending
  exact ⟨payloads,frames,sending.answered,sending.framed.imp_right And.right,sending.begins closed⟩

theorem Consistent.ordered (consistent : Consistent limits wire jobs connection) : InWireOrder limits wire := by
  obtain ⟨parsed,frames,inside,_⟩ := consistent.parsed
  exact ⟨parsed,frames,inside⟩

theorem getElem?_of_begins {α : Type} {list more : List α} {index : Nat} {item : α} (begins : list <+: more)
    (found : list[index]? = some item) : more[index]? = some item := by
  obtain ⟨rest,rfl⟩ := begins
  exact (List.getElem?_append_left (List.getElem?_eq_some_iff.mp found).1).trans found

theorem Answered.extend {later : Wire} {sequence : Nat} {payload : Bytes} (answered : Answered wire sequence payload)
    (commands : wire.commands <+: later.commands) (executions : later.executions = wire.executions) :
    Answered later sequence payload := by
  obtain ⟨found,reply,command,once,encoded⟩ := answered
  exact ⟨found,reply,getElem?_of_begins commands command,executions ▸ once,encoded⟩

theorem Answered.mem {sequence : Nat} {payload : Bytes} (answered : Answered wire sequence payload) :
    sequence ∈ wire.executions.map Prod.fst := by
  obtain ⟨request,reply,_,once,_⟩ := answered
  have member : (sequence,request,reply) ∈ wire.executions.filter (fun execution => execution.1 = sequence) := by
    rw [once]
    exact List.mem_singleton.mpr rfl
  exact List.mem_map.mpr ⟨_,(List.mem_filter.mp member).1,rfl⟩

theorem Answered.execute {sequence other : Nat} {payload : Bytes} (answered : Answered wire sequence payload)
    (request reply : RespValue) (different : other ∉ wire.executions.map Prod.fst) :
    Answered {wire with executions := wire.executions ++ [(other,request,reply)]} sequence payload := by
  have apart : other ≠ sequence := fun same => different (same ▸ answered.mem)
  obtain ⟨found,answer,command,once,encoded⟩ := answered
  refine ⟨found,answer,command,?_,encoded⟩
  simp [once,apart]

theorem Delivered.execute {other : Nat} (delivered : Delivered wire) (request reply : RespValue)
    (different : other ∉ wire.executions.map Prod.fst) :
    Delivered {wire with executions := wire.executions ++ [(other,request,reply)]} := by
  obtain ⟨payloads,frames,all,framed,inside⟩ := delivered
  exact ⟨payloads,frames,fun index payload found => (all index payload found).execute request reply different,framed,inside⟩

/-- After a step of the connection only its own invariant has to be shown. -/
theorem Tracked.advance {later : Wire} {more : List Job} {next : Connection} (tracked : Tracked limits wire jobs completions)
    (consistent : Consistent limits later more next) (commands : wire.commands <+: later.commands)
    (executions : later.executions = wire.executions)
    (known : ∀ job ∈ more, job ∈ jobs ∨ later.commands[job.sequence]? = some job.request) :
    Tracked limits later more completions where
  known := by
    intro job member
    rcases known job member with old | new
    · exact getElem?_of_begins commands (tracked.known job old)
    · exact new
  executed := by
    rw [executions]
    exact fun execution member => lt_of_lt_of_le (tracked.executed execution member) commands.length_le
  distinct := (List.nodup_append.mp consistent.distinct).2.1
  answered := fun completion member => (tracked.answered completion member).extend commands executions
  delivered := consistent.delivered
  ordered := consistent.ordered

theorem Tracked.unexecuted {job : Job} {rest : List Job} (tracked : Tracked limits wire jobs completions)
    (taken : jobs.Perm (job::rest)) : job.sequence ∉ wire.executions.map Prod.fst := by
  have apart := (List.nodup_append.mp tracked.distinct).2.2
  have member : job.sequence ∈ jobs.map Job.sequence :=
    List.mem_map.mpr ⟨job,taken.mem_iff.mpr List.mem_cons_self,rfl⟩
  exact fun executed => apart _ member _ executed rfl

theorem Tracked.execute {job : Job} {rest : List Job} {reply : RespValue} {payload : Bytes}
    (tracked : Tracked limits wire jobs completions) (taken : jobs.Perm (job::rest)) (encoded : encode reply = .ok payload)
    {more : List Completion} (added : ∀ completion ∈ more, completion ∈ completions ∨
      completion.sequence = job.sequence ∧ completion.payload = payload) :
    Tracked limits {wire with executions := wire.executions ++ [(job.sequence,job.request,reply)]} rest more := by
  have command := tracked.known job (taken.mem_iff.mpr List.mem_cons_self)
  have moved : (jobs.map Job.sequence ++ wire.executions.map Prod.fst).Perm
      (rest.map Job.sequence ++ (wire.executions ++ [(job.sequence,job.request,reply)]).map Prod.fst) := by
    refine ((taken.map Job.sequence).append_right _).trans ?_
    rw [List.map_append,← List.append_assoc]
    exact (List.perm_append_singleton job.sequence _).symm
  have fresh := tracked.unexecuted taken
  refine ⟨?_,?_,moved.nodup_iff.mp tracked.distinct,?_,fun closed => (tracked.delivered closed).execute _ _ fresh,
    tracked.ordered⟩
  · exact fun other member => tracked.known other (taken.mem_iff.mpr (List.mem_cons_of_mem _ member))
  · refine List.forall_mem_append.mpr ⟨tracked.executed,List.forall_mem_singleton.mpr ?_⟩
    exact (List.getElem?_eq_some_iff.mp command).1
  · intro completion member
    rcases added completion member with old | ⟨same,bytes⟩
    · exact (tracked.answered completion old).execute _ _ fresh
    · rw [same,bytes]
      refine ⟨job.request,reply,command,?_,encoded⟩
      have none : wire.executions.filter (fun execution => execution.1 = job.sequence) = [] := by
        refine List.filter_eq_nil_iff.mpr fun execution inside => ?_
        simpa using fun equal => fresh (List.mem_map.mpr ⟨execution,inside,equal⟩)
      simp [none]

theorem Consistent.execute {job : Job} {rest : List Job} (consistent : Consistent limits wire jobs connection)
    (taken : jobs.Perm (job::rest)) (reply : RespValue) (fresh : job.sequence ∉ wire.executions.map Prod.fst) :
    Consistent limits {wire with executions := wire.executions ++ [(job.sequence,job.request,reply)]} rest connection := by
  obtain ⟨payloads,frames,sending⟩ := consistent.sending
  refine {consistent with distinct := ?_, pending := ?_, sending := ⟨payloads,frames,{sending with answered := ?_}⟩}
  · refine (List.Perm.nodup_iff ?_).mp consistent.distinct
    refine List.Perm.append_left _ (((taken.map Job.sequence).append_right _).trans ?_)
    rw [List.map_append,← List.append_assoc]
    exact (List.perm_append_singleton job.sequence _).symm
  · exact fun sequence payload found => (consistent.pending sequence payload found).execute _ _ fresh
  · exact fun index payload found => (sending.answered index payload found).execute _ _ fresh

theorem Tracked.reorder {others : List Job} {fewer : List Completion} (tracked : Tracked limits wire jobs completions)
    (moved : jobs.Perm others) (kept : ∀ completion ∈ fewer, completion ∈ completions) :
    Tracked limits wire others fewer := by
  refine {tracked with known := ?_, distinct := ?_, answered := ?_}
  · exact fun job member => tracked.known job (moved.mem_iff.mpr member)
  · exact ((moved.map Job.sequence).append_right _).nodup_iff.mp tracked.distinct
  · exact fun completion member => tracked.answered completion (kept completion member)

theorem Consistent.reorder {others : List Job} (consistent : Consistent limits wire jobs connection)
    (moved : jobs.Perm others) : Consistent limits wire others connection := by
  refine {consistent with distinct := ?_}
  exact (((moved.map Job.sequence).append_right _).append_left _).nodup_iff.mp consistent.distinct

theorem Consistent.touch {next : Connection} (consistent : Consistent limits wire jobs connection)
    (requests : next.nextRequestSeq = connection.nextRequestSeq) (queue : next.commandQueue = connection.commandQueue)
    (pending : next.pendingResponses = connection.pendingResponses) (parser : next.parser = connection.parser)
    (responses : next.nextResponseSeq = connection.nextResponseSeq) (output : next.output = connection.output)
    (closing : connection.closing = true → next.closing = true) : Consistent limits wire jobs next := by
  obtain ⟨payloads,frames,sending⟩ := consistent.sending
  refine ⟨requests.trans consistent.requests,?_,?_,?_,⟨payloads,frames,?_,sending.answered,?_,?_⟩,?_,?_,?_⟩
  · rw [queue]
    exact consistent.queued
  · rw [queue]
    exact consistent.distinct
  · rw [pending]
    exact consistent.pending
  · rw [responses]
    exact sending.count
  · exact sending.framed.imp_right fun interrupted => ⟨closing interrupted.1,interrupted.2⟩
  · rw [output]
    exact sending.sent
  · rw [parser]
    exact consistent.bounded
  · rw [parser]
    exact consistent.room
  · obtain ⟨parsed,split,inside,whole⟩ := consistent.parsed
    refine ⟨parsed,split,inside,fun active => ?_⟩
    rw [parser]
    refine whole (Bool.eq_false_iff.mpr fun closed => ?_)
    cases active.symm.trans (closing closed)

/-- The bytes are added to the buffer, or the parser is marked. -/
theorem feed_cases (parser : Parser) (bytes : Bytes) : (parser.feed bytes).2.limits = parser.limits ∧
    ((parser.feed bytes).2.bufferOversized = true ∧ (parser.feed bytes).2.buffer = parser.buffer ∨
      parser.bufferOversized = false ∧ (parser.feed bytes).2.buffer = parser.buffer ++ bytes ∧
        (parser.buffer ++ bytes).length ≤ parser.limits.maxBufferSize) := by
  unfold Parser.feed
  split
  · next oversized => exact ⟨rfl,Or.inl ⟨oversized,rfl⟩⟩
  · next fits =>
    split
    · exact ⟨rfl,Or.inl ⟨rfl,rfl⟩⟩
    · next room =>
      refine ⟨rfl,Or.inr ⟨by simpa using fits,rfl,?_⟩⟩
      rw [List.length_append]
      omega

theorem Consistent.receive (consistent : Consistent limits wire jobs connection) (bytes : Bytes) (now : Int) :
    Consistent limits {wire with received := wire.received ++ bytes} jobs
      {connection with lastActivity := now, parser := (connection.parser.feed bytes).2} := by
  obtain ⟨payloads,frames,sending⟩ := consistent.sending
  obtain ⟨parsed,split,inside,whole⟩ := consistent.parsed
  obtain ⟨same,cases⟩ := feed_cases connection.parser bytes
  refine {consistent with
    sending := ⟨payloads,frames,{sending with}⟩
    bounded := same.trans consistent.bounded
    room := ?_
    parsed := ⟨parsed,split,inside.trans (List.prefix_append _ _),fun active fits => ?_⟩}
  · rcases cases with ⟨_,kept⟩ | ⟨_,added,room⟩
    · rw [kept]
      exact consistent.room
    · rw [added]
      exact consistent.bounded ▸ room
  · rcases cases with ⟨oversized,_⟩ | ⟨small,added,_⟩
    · cases oversized.symm.trans fits
    · rw [added,← List.append_assoc,whole active small]

theorem frames_append {depth : Nat} {items : List RespValue} {bytes : Bytes} (frames : Frames limits depth items bytes)
    {value : RespValue} {piece : Bytes} (frame : Frame limits depth value piece) :
    Frames limits depth (items ++ [value]) (bytes ++ piece) := by
  induction items generalizing bytes with
  | nil =>
    cases frames
    have single := Frames.cons depth value [] piece [] frame (.nil depth)
    rwa [List.append_nil] at single
  | cons item items ih =>
    cases frames with
    | cons _ _ _ first rest head tail =>
      rw [List.append_assoc]
      exact .cons depth item _ first _ head (ih tail)

theorem next_complete {parser after : Parser} {value : RespValue} (parsed : parser.next = (.complete value,after)) :
    parser.bufferOversized = false ∧ after.bufferOversized = false ∧ after.limits = parser.limits ∧
      ∃ piece, Frame parser.limits 0 value piece ∧ piece ++ after.buffer = parser.buffer := by
  unfold Parser.next at parsed
  split at parsed
  · cases parsed
  · next fits =>
    have small : parser.bufferOversized = false := by simpa using fits
    split at parsed
    · next found consumed complete =>
      cases parsed
      obtain ⟨_,frame⟩ := (parseValue_complete_iff 0 _ _ _).mp complete
      exact ⟨small,small,rfl,_,frame,List.take_append_drop _ _⟩
    · cases parsed
    · cases parsed

theorem Consistent.enqueue {request : RespValue} {parser : Parser} (consistent : Consistent limits wire jobs connection)
    (tracked : Tracked limits wire jobs completions) (active : connection.closing = false)
    (parsed : connection.parser.next = (.complete request,parser)) :
    Consistent limits {wire with commands := wire.commands ++ [request]} jobs
      {connection with
        parser := parser
        nextRequestSeq := connection.nextRequestSeq + 1
        inflight := connection.inflight + 1
        commandQueue := connection.commandQueue ++ [⟨connection.nextRequestSeq,request⟩]} := by
  obtain ⟨payloads,frames,sending⟩ := consistent.sending
  obtain ⟨taken,split,_,whole⟩ := consistent.parsed
  obtain ⟨fits,fits',same,piece,frame,buffer⟩ := next_complete parsed
  have begins : wire.commands <+: wire.commands ++ [request] := List.prefix_append _ _
  have total : taken ++ piece ++ parser.buffer = wire.received := by
    rw [List.append_assoc,buffer]
    exact whole active fits
  refine ⟨?_,?_,?_,?_,⟨payloads,frames,{sending with answered := ?_}⟩,same.trans consistent.bounded,?_,
    ⟨taken ++ piece,?_,⟨_,total⟩,fun _ _ => total⟩⟩
  · simp [consistent.requests]
  · refine List.forall_mem_append.mpr ⟨?_,List.forall_mem_singleton.mpr ?_⟩
    · exact fun item member => getElem?_of_begins begins (consistent.queued item member)
    · simp [consistent.requests]
  · -- the new sequence number lies above all that are in use
    have below : ∀ sequence ∈ connection.commandQueue.map QueuedCommand.sequence ++
        (jobs.map Job.sequence ++ wire.executions.map Prod.fst), sequence < wire.commands.length := by
      simp only [List.forall_mem_append,List.forall_mem_map]
      refine ⟨fun item member => ?_,fun job member => ?_,tracked.executed⟩
      · exact (List.getElem?_eq_some_iff.mp (consistent.queued item member)).1
      · exact (List.getElem?_eq_some_iff.mp (tracked.known job member)).1
    rw [List.map_append,List.append_assoc]
    refine (List.perm_middle.nodup_iff).mpr (List.nodup_cons.mpr ⟨fun member => ?_,consistent.distinct⟩)
    have bound := below _ member
    rw [consistent.requests] at bound
    exact lt_irrefl _ bound
  · exact fun sequence payload found => (consistent.pending sequence payload found).extend begins rfl
  · exact fun index payload found => (sending.answered index payload found).extend begins rfl
  · refine le_trans ?_ consistent.room
    rw [← buffer,List.length_append]
    exact Nat.le_add_left _ _
  · exact frames_append split (consistent.bounded ▸ frame)

theorem Consistent.launch {item : QueuedCommand} {rest : List QueuedCommand}
    (consistent : Consistent limits wire jobs connection) (queue : connection.commandQueue = item::rest) :
    Consistent limits wire (⟨connection.id,item.sequence,item.request⟩::jobs)
      {connection with commandQueue := rest, strandRunning := true} := by
  obtain ⟨payloads,frames,sending⟩ := consistent.sending
  have queued := consistent.queued
  have distinct := consistent.distinct
  rw [queue] at queued distinct
  refine {consistent with queued := ?_, distinct := ?_, sending := ⟨payloads,frames,{sending with}⟩}
  · exact fun other member => queued other (List.mem_cons_of_mem _ member)
  · exact (List.perm_middle.symm.nodup_iff).mp distinct

/-- Bytes that are taken after the socket was closed are not accounted for. -/
theorem Consistent.write {count : Nat} (consistent : Consistent limits wire jobs connection) (now : Int) :
    Consistent limits
      {wire with sent := wire.sent ++ connection.output.take count, resumed := wire.resumed || wire.broken} jobs
      {connection with output := connection.output.drop count, lastActivity := now} := by
  obtain ⟨payloads,frames,sending⟩ := consistent.sending
  refine {consistent with sending := ⟨payloads,frames,{sending with sent := ?_}⟩}
  have sent := sending.sent
  split at sent
  · next broken =>
    rw [if_pos broken]
    intro closed
    rw [Wire.StaysClosed,broken,Bool.or_true] at closed
    cases closed
  · next whole =>
    rw [if_neg whole,List.append_assoc]
    exact (congrArg (wire.sent ++ ·) (List.take_append_drop count connection.output)).trans sent

theorem Consistent.breaks (consistent : Consistent limits wire jobs connection) :
    Consistent limits {wire with broken := true} jobs {connection with closing := true, output := []} := by
  obtain ⟨payloads,frames,sending⟩ := consistent.sending
  obtain ⟨parsed,split,inside,_⟩ := consistent.parsed
  refine {consistent with sending := ⟨payloads,frames,{sending with framed := ?_, sent := ?_}⟩, parsed := ⟨parsed,split,inside,?_⟩}
  · exact sending.framed.imp_right fun interrupted => ⟨rfl,interrupted.2⟩
  · rw [if_pos rfl]
    exact sending.begins
  · exact fun active => by cases active

theorem next_shrinks (parser : Parser) :
    parser.next.2.limits = parser.limits ∧ parser.next.2.buffer.length ≤ parser.buffer.length := by
  unfold Parser.next
  split
  · exact ⟨rfl,le_refl _⟩
  · split
    · exact ⟨rfl,by rw [List.length_drop]; exact Nat.sub_le _ _⟩
    · exact ⟨rfl,le_refl _⟩
    · exact ⟨rfl,le_refl _⟩

/-- The error frame is added at most once, since the connection closes then. -/
theorem Consistent.fail {parser : Parser} (consistent : Consistent limits wire jobs connection)
    (active : connection.closing = false) (same : parser.limits = connection.parser.limits)
    (less : parser.buffer.length ≤ connection.parser.buffer.length) :
    Consistent limits wire jobs {connection with
      parser := parser
      output := connection.output ++ protocolErrorFrame
      closing := true
      readClosed := true} := by
  obtain ⟨payloads,frames,sending⟩ := consistent.sending
  obtain ⟨parsed,split,inside,_⟩ := consistent.parsed
  have plain : frames = payloads.flatten := by
    rcases sending.framed with plain | ⟨closing,_⟩
    · exact plain
    · cases active.symm.trans closing
  refine {consistent with
    sending := ⟨payloads,frames ++ protocolErrorFrame,sending.count,sending.answered,Or.inr ⟨rfl,?_⟩,?_⟩
    bounded := same.trans consistent.bounded
    room := le_trans less consistent.room
    parsed := ⟨parsed,split,inside,?_⟩}
  · refine ⟨payloads.length,le_refl _,?_⟩
    rw [List.take_length,List.drop_length,List.flatten_nil,List.append_nil,plain]
  · have sent := sending.sent
    split at sent
    · next broken =>
      rw [if_pos broken]
      exact fun closed => (sent closed).trans (List.prefix_append _ _)
    · next whole =>
      rw [if_neg whole,← List.append_assoc,sent]
  · exact fun active => by cases active

theorem Interrupted.append {payloads : List Bytes} {frames : Bytes} (interrupted : Interrupted payloads frames)
    (payload : Bytes) : Interrupted (payloads ++ [payload]) (frames ++ payload) := by
  obtain ⟨position,bound,rfl⟩ := interrupted
  refine ⟨position,le_trans bound (by simp),?_⟩
  rw [List.take_append_of_le_length bound,List.drop_append_of_le_length bound]
  simp

theorem Consistent.flush (config : ServerConfig) (bound : Nat) (consistent : Consistent limits wire jobs connection) :
    Consistent limits wire jobs (flushPending config bound connection) := by
  induction bound generalizing connection with
  | zero => exact consistent
  | succ bound ih =>
    unfold flushPending
    split
    · exact consistent
    · next payload found =>
      obtain ⟨payloads,frames,sending⟩ := consistent.sending
      split
      · obtain ⟨parsed,split,inside,_⟩ := consistent.parsed
        refine {consistent with
          pending := ?_
          sending := ⟨payloads,frames,{sending with framed := ?_}⟩
          parsed := ⟨parsed,split,inside,?_⟩}
        · intro sequence other absent
          rw [AList.lookup_empty] at absent
          cases absent
        · exact sending.framed.imp_right fun interrupted => ⟨rfl,interrupted.2⟩
        · exact fun active => by cases active
      · refine ih {consistent with
          pending := ?_, sending := ⟨payloads ++ [payload],frames ++ payload,⟨?_,?_,?_,?_⟩⟩}
        · intro sequence other kept
          exact consistent.pending sequence other (lookup_erase_some kept).2
        · simp [sending.count]
        · intro index other at_
          rcases Nat.lt_or_ge index payloads.length with inside | outside
          · rw [List.getElem?_append_left inside] at at_
            exact sending.answered index other at_
          · rw [List.getElem?_append_right outside,List.getElem?_singleton] at at_
            split at at_
            · next last =>
              cases at_
              obtain rfl : index = connection.nextResponseSeq := by
                rw [← sending.count]
                omega
              exact consistent.pending _ _ found
            · cases at_
        · rcases sending.framed with plain | ⟨closing,interrupted⟩
          · exact Or.inl (by rw [plain]; simp)
          · exact Or.inr ⟨closing,interrupted.append payload⟩
        · have sent := sending.sent
          split at sent
          · next broken =>
            rw [if_pos broken]
            exact fun closed => (sent closed).trans (List.prefix_append _ _)
          · next whole =>
            rw [if_neg whole,← List.append_assoc,sent]

theorem Consistent.respond {config : ServerConfig} {completion : Completion} {now : Int}
    (consistent : Consistent limits wire jobs connection)
    (answered : Answered wire completion.sequence completion.payload) :
    Consistent limits wire jobs (connection.respond config completion now) := by
  obtain ⟨payloads,frames,sending⟩ := consistent.sending
  have accepted : Consistent limits wire jobs (connection.accept completion) := by
    refine {consistent with pending := ?_, sending := ⟨payloads,frames,{sending with}⟩}
    intro sequence payload found
    rw [Connection.accept] at found
    dsimp only at found
    split at found
    · exact consistent.pending sequence payload found
    · by_cases same : sequence = completion.sequence
      · rw [same,AList.lookup_insert] at found
        cases found
        rwa [same]
      · rw [AList.lookup_insert_ne same] at found
        exact consistent.pending sequence payload found
  exact (accepted.flush config _).touch rfl rfl rfl rfl rfl rfl id

theorem consistent_new (config : ServerConfig) (id : Nat) (now : Int) :
    Consistent config.parserLimits Wire.empty [] (Connection.new config id now) := by
  refine ⟨rfl,by simp [Connection.new],by simp [Connection.new,Wire.empty],?_,⟨[],[],rfl,?_,Or.inl rfl,rfl⟩,rfl,
    Nat.zero_le _,⟨[],.nil 0,List.prefix_rfl,fun _ _ => rfl⟩⟩
  · intro sequence payload found
    rw [Connection.new,AList.lookup_empty] at found
    cases found
  · intro index payload found
    cases found

theorem tracked_empty (limits : ParserLimits) : Tracked limits Wire.empty [] [] := by
  refine ⟨by simp,by simp [Wire.empty],by simp [Wire.empty],by simp,fun _ => ⟨[],[],?_,Or.inl rfl,List.prefix_rfl⟩,
    ⟨[],.nil 0,List.prefix_rfl⟩⟩
  intro index payload found
  cases found

end NovaCache.Server
