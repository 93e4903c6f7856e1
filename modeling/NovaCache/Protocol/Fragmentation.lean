import NovaCache.Protocol.Acceptance

/-! A stream fed in chunks to one parser yields the frames of the whole stream. -/
namespace NovaCache.Protocol
open Incremental

namespace Parser

/-- Calls `next` until it returns no value; each value comes with the bytes it took off
the buffer. Every value takes a byte, so `fuel` beyond the buffer size is never used up. -/
def drain : Nat → Parser → Except Failure (List (RespValue × Bytes) × ParseResult × Parser)
  | 0, _ => .error .unfinished
  | fuel+1, parser =>
    match parser.next with
    | (.complete value,after) => do
      let range := parser.buffer.take (parser.buffer.length - after.buffer.length)
      let (frames,last,final) ← drain fuel after
      .ok ((value,range)::frames,last,final)
    | (.incomplete,after) => .ok ([],.incomplete,after)
    | (.failed fault,after) => .ok ([],.failed fault,after)

/-- Feeds the chunks one by one and drains after each, until a status other than
complete and incomplete. -/
def feedAll (parser : Parser) : List Bytes → Except Failure (List (RespValue × Bytes) × ParseResult × Parser)
  | [] => .ok ([],.incomplete,parser)
  | chunk::chunks => do
    let fed := (parser.feed chunk).2
    let (frames,last,after) ← drain (fed.buffer.length + 1) fed
    match last with
    | .incomplete =>
      let (later,last,final) ← after.feedAll chunks
      .ok (frames ++ later,last,final)
    | last => .ok (frames,last,after)

end Parser

variable (limits : ParserLimits)

theorem parse_stable : Stable (fun input => parseValue input 0 limits) := by
  intro input more decided
  dsimp only at decided ⊢
  have justified := @parseValue_justified limits 0 input
  cases parsed : parseValue input 0 limits with
  | incomplete => exact absurd parsed decided
  | complete value consumed =>
    rw [parsed] at justified
    obtain ⟨bytes,rest,rfl,rfl,frame⟩ := justified
    rw [List.append_assoc]
    exact parseValue_frame 0 value bytes (rest ++ more) frame
  | failed fault =>
    rw [parsed] at justified
    obtain ⟨bytes,rest,rfl,violation⟩ := justified
    rw [List.append_assoc]
    exact parseValue_violation 0 fault bytes (rest ++ more) violation

theorem frame_positive (depth : Nat) (value : RespValue) (bytes : Bytes) (frame : Frame limits depth value bytes) :
    0 < bytes.length := by
  cases frame <;> exact Nat.succ_pos _

theorem parse_progressive : Progressive (fun input => parseValue input 0 limits) := by
  intro input value consumed parsed
  have justified := @parseValue_justified limits 0 input
  dsimp only at parsed
  rw [parsed] at justified
  obtain ⟨bytes,rest,rfl,rfl,frame⟩ := justified
  exact ⟨frame_positive limits 0 value bytes frame,by simp⟩

def terminal : Option Fault → ParseResult
  | none => .incomplete
  | some fault => .failed fault

def holding (buffer : Bytes) : Parser := ⟨limits,buffer,false⟩

theorem drain_drains (fuel : Nat) (buffer : Bytes) (enough : buffer.length < fuel) :
    ∃ frames fault rest, Parser.drain fuel (holding limits buffer) = .ok (frames,terminal fault,holding limits rest) ∧
      Drains (fun input => parseValue input 0 limits) buffer frames fault rest := by
  induction fuel generalizing buffer with
  | zero => exact absurd enough (Nat.not_lt_zero _)
  | succ fuel ih =>
    cases parsed : parseValue buffer 0 limits with
    | incomplete =>
      refine ⟨[],none,buffer,?_,Drains.waits buffer parsed⟩
      simp [Parser.drain,Parser.next,holding,parsed,terminal]
    | failed fault =>
      refine ⟨[],some fault,buffer,?_,Drains.faults buffer fault parsed⟩
      simp [Parser.drain,Parser.next,holding,parsed,terminal]
    | complete value consumed =>
      obtain ⟨positive,inside⟩ := parse_progressive limits buffer value consumed parsed
      obtain ⟨frames,fault,rest,drained,drains⟩ := ih (buffer.drop consumed) (by
        rw [List.length_drop]
        omega)
      refine ⟨(value,buffer.take consumed)::frames,fault,rest,?_,
        Drains.takes buffer value consumed frames fault rest parsed drains⟩
      have range : buffer.length - (buffer.drop consumed).length = consumed := by
        rw [List.length_drop]
        omega
      have stepped : (holding limits buffer).next = (.complete value,holding limits (buffer.drop consumed)) := by
        simp [Parser.next,holding,parsed]
      rw [Parser.drain,stepped]
      dsimp only
      rw [drained,Persistence.ok_bind,show (holding limits buffer).buffer.length -
        (holding limits (buffer.drop consumed)).buffer.length = consumed from range]
      rfl

/-- The values at the front of some bytes, as the parser takes them off one by one. -/
def framesIn (bytes : Bytes) : List RespValue :=
  match Parser.drain (bytes.length + 1) (holding limits bytes) with
  | .ok (frames,_) => frames.map Prod.fst
  | .error _ => []

theorem framesIn_drains {bytes rest : Bytes} {frames : List (RespValue × Bytes)} {fault : Option Fault}
    (drains : Drains (fun input => parseValue input 0 limits) bytes frames fault rest) :
    framesIn limits bytes = frames.map Prod.fst := by
  obtain ⟨frames',fault',rest',drained,drains'⟩ := drain_drains limits (bytes.length + 1) bytes (Nat.lt_succ_self _)
  rw [framesIn,drained,(drains.unique drains').1]

theorem framesIn_frame {value : RespValue} {piece : Bytes} (frame : Frame limits 0 value piece) (rest : Bytes) :
    framesIn limits (piece ++ rest) = value::framesIn limits rest := by
  obtain ⟨frames,fault,left,_,drains⟩ := drain_drains limits (rest.length + 1) rest (Nat.lt_succ_self _)
  have behind : (piece ++ rest).drop piece.length = rest := List.drop_left
  have complete := parseValue_frame 0 value piece rest frame
  rw [framesIn_drains limits (Drains.takes _ value piece.length frames fault left complete (behind.symm ▸ drains)),
    framesIn_drains limits drains]
  rfl

theorem framesIn_frames {items : List RespValue} {front : Bytes} (frames : Frames limits 0 items front) (rest : Bytes) :
    framesIn limits (front ++ rest) = items ++ framesIn limits rest := by
  induction items generalizing front with
  | nil =>
    cases frames
    rfl
  | cons item items ih =>
    cases frames with
    | cons _ _ _ first behind head tail =>
      rw [List.append_assoc,framesIn_frame limits head,ih tail]
      rfl

/-- Frames that a stream of frames begins with are the first of them. -/
theorem frames_split {one two : List RespValue} {front stream : Bytes} (first : Frames limits 0 one front)
    (whole : Frames limits 0 two stream) (inside : front <+: stream) :
    ∃ rest more, two = one ++ rest ∧ stream = front ++ more ∧ Frames limits 0 rest more := by
  induction one generalizing front two stream with
  | nil =>
    cases first
    exact ⟨two,stream,rfl,rfl,whole⟩
  | cons value one ih =>
    obtain ⟨more,rfl⟩ := inside
    cases first with
    | cons _ _ _ piece front head tail =>
      have parsed := parseValue_frame 0 value piece (front ++ more) head
      rw [← List.append_assoc] at parsed
      generalize equal : piece ++ front ++ more = stream at whole parsed
      cases whole with
      | nil =>
        have size := congrArg List.length equal
        have positive := frame_positive limits 0 value piece head
        simp only [List.length_append,List.length_nil] at size
        omega
      | cons _ item items piece' behind head' tail' =>
        rw [parseValue_frame 0 item piece' behind head'] at parsed
        obtain ⟨rfl,same⟩ : item = value ∧ piece'.length = piece.length := by simpa using parsed
        rw [List.append_assoc] at equal
        obtain ⟨rfl,rfl⟩ := List.append_inj equal same.symm
        obtain ⟨rest,left,rfl,split,frames⟩ := ih tail tail' (List.prefix_append _ _)
        exact ⟨rest,left,rfl,by rw [split,List.append_assoc],frames⟩

/-- A part of a stream of frames is no violation: its first frame is there or it is not. -/
theorem frames_prefix {items : List RespValue} {stream buffer : Bytes} (frames : Frames limits 0 items stream)
    (inside : buffer <+: stream) : parseValue buffer 0 limits = .incomplete ∨
      ∃ item rest consumed, items = item::rest ∧ parseValue buffer 0 limits = .complete item consumed := by
  by_cases waiting : parseValue buffer 0 limits = .incomplete
  · exact Or.inl waiting
  · obtain ⟨more,rfl⟩ := inside
    have stable := parse_stable limits buffer more waiting
    dsimp only at stable
    rw [← stable]
    generalize equal : buffer ++ more = stream at frames
    cases frames with
    | nil =>
      rw [(List.append_eq_nil_iff.mp equal).1,parseValue_eq] at waiting
      exact absurd rfl waiting
    | cons _ item items piece behind head tail =>
      exact Or.inr ⟨item,items,_,rfl,parseValue_frame 0 item piece behind head⟩

theorem frames_nonempty {items : List RespValue} {stream : Bytes} (frames : Frames limits 0 items stream)
    (some : stream ≠ []) : ∃ item consumed, parseValue stream 0 limits = .complete item consumed := by
  cases frames with
  | nil => exact absurd rfl some
  | cons _ item items piece behind head tail => exact ⟨item,_,parseValue_frame 0 item piece behind head⟩

theorem feed_holding (buffer chunk : Bytes) (room : buffer.length + chunk.length ≤ limits.maxBufferSize) :
    ((holding limits buffer).feed chunk).2 = holding limits (buffer ++ chunk) := by
  have fits : ¬ (buffer.length > limits.maxBufferSize ∨ chunk.length > limits.maxBufferSize - buffer.length) := by
    omega
  simp [Parser.feed,holding,fits]

theorem feedAll_session (chunks : List Bytes) (buffer : Bytes)
    (room : buffer.length + chunks.flatten.length ≤ limits.maxBufferSize) :
    ∃ frames fault rest, (holding limits buffer).feedAll chunks = .ok (frames,terminal fault,holding limits rest) ∧
      Session (fun input => parseValue input 0 limits) buffer chunks frames fault rest := by
  induction chunks generalizing buffer with
  | nil => exact ⟨[],none,buffer,rfl,Session.ends buffer⟩
  | cons chunk chunks ih =>
    rw [List.flatten_cons,List.length_append] at room
    have fed := feed_holding limits buffer chunk (by omega)
    obtain ⟨frames,fault,rest,drained,drains⟩ := drain_drains limits ((buffer ++ chunk).length + 1) (buffer ++ chunk)
      (Nat.lt_succ_self _)
    rw [Parser.feedAll,fed]
    dsimp only
    rw [show (holding limits (buffer ++ chunk)).buffer = buffer ++ chunk from rfl,drained,Persistence.ok_bind]
    cases fault with
    | some fault => exact ⟨frames,some fault,rest,rfl,Session.stops buffer chunk rest chunks frames fault drains⟩
    | none =>
      have remaining : rest.length ≤ buffer.length + chunk.length := by
        have joined := congrArg List.length drains.flatten
        rw [List.length_append,List.length_append] at joined
        omega
      obtain ⟨later,fault,final,continued,further⟩ := ih rest (by omega)
      refine ⟨frames ++ later,fault,final,?_,
        Session.continues buffer chunk rest final chunks frames later fault drains further⟩
      change (do
        let (later,last,final) ← (holding limits rest).feedAll chunks
        .ok (frames ++ later,last,final)) = _
      rw [continued]
      rfl

/-- However a stream is cut into chunks, the parser yields the values and the terminal
status of the whole stream. Without a fault, what the values took and the remaining
buffer are the bytes fed, and every value took at least one. -/
theorem fragmentation_independent (chunks : List Bytes) (room : chunks.flatten.length ≤ limits.maxBufferSize) :
    ∃ frames last parser whole,
      (Parser.new limits).feedAll chunks = .ok (frames,last,parser) ∧
      (Parser.new limits).feedAll [chunks.flatten] = .ok (frames,last,whole) ∧
      (last.status = .incomplete → (frames.map Prod.snd).flatten ++ parser.buffer = chunks.flatten) ∧
      ∀ frame ∈ frames, frame.2 ≠ [] := by
  have empty : parseValue [] 0 limits = .incomplete := by
    rw [parseValue_eq]
    rfl
  have stable := parse_stable limits
  have progressive := parse_progressive limits
  obtain ⟨frames,fault,rest,fed,session⟩ := feedAll_session limits chunks [] (by simpa using room)
  obtain ⟨frames',fault',rest',fed',session'⟩ := feedAll_session limits [chunks.flatten] [] (by simpa using room)
  obtain ⟨final,drains,same⟩ := session.whole stable progressive empty
  obtain ⟨final',drains',_⟩ := session'.whole stable progressive empty
  rw [List.flatten_singleton] at drains'
  obtain ⟨rfl,rfl,rfl⟩ := drains'.unique drains
  refine ⟨frames',terminal fault',holding limits rest,holding limits rest',fed,fed',fun waiting => ?_,
    drains.nonempty progressive⟩
  cases fault' with
  | none =>
    have joined := drains.flatten
    rwa [same rfl] at joined
  | some fault =>
    rcases fault with ⟨kind,message⟩
    cases kind <;> cases waiting

/-- A bulk string cut between CR and LF. -/
theorem fragmentation_independent_cut :
    ∃ frames last parser whole,
      (Parser.new .default).feedAll [[0x24,0x31,0x0D],[0x0A,0x61,0x0D,0x0A]] = .ok (frames,last,parser) ∧
      (Parser.new .default).feedAll [[0x24,0x31,0x0D,0x0A,0x61,0x0D,0x0A]] = .ok (frames,last,whole) := by
  obtain ⟨frames,last,parser,whole,fed,fed',_⟩ :=
    fragmentation_independent .default [[0x24,0x31,0x0D],[0x0A,0x61,0x0D,0x0A]] (by decide)
  exact ⟨frames,last,parser,whole,fed,fed'⟩

end NovaCache.Protocol
