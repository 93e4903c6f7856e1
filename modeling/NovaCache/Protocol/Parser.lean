import NovaCache.Protocol.Encoder
import NovaCache.Incremental

/-! The incremental parser. Positions into the input are those of the source; `size_t` has
64 bits. The recursion of `parse_value` ends because arrays are refused at the depth limit. -/
namespace NovaCache.Protocol
open Incremental

inductive ParseStatus
  | complete
  | incomplete
  | malformed
  | oversized
  | tooDeep
  deriving DecidableEq, Repr

structure ParserLimits where
  maxBulkSize : Nat
  maxArraySize : Nat
  maxDepth : Nat
  maxBufferSize : Nat

def ParserLimits.default : ParserLimits := ⟨8 * 1024 * 1024,1024,32,16 * 1024 * 1024⟩

inductive FaultKind
  | malformed
  | oversized
  | tooDeep
  deriving DecidableEq, Repr

structure Fault where
  kind : FaultKind
  message : String
  deriving DecidableEq, Repr

abbrev LineResult := Verdict Bytes Fault
abbrev ValueResult := Verdict RespValue Fault

def malformed {α : Type} (message : String) : Verdict α Fault := .failed ⟨.malformed,message⟩
def oversized {α : Type} (message : String) : Verdict α Fault := .failed ⟨.oversized,message⟩

/-- The loop of `read_line`, with the bytes passed since `start`. -/
def scanLine (start : Nat) (line : Bytes) : Bytes → LineResult
  | [] => .incomplete
  | byte::rest =>
    if byte = lineFeed then malformed "line feed without preceding carriage return"
    else if byte ≠ carriageReturn then scanLine start (line ++ [byte]) rest
    else match rest with
      | [] => .incomplete
      | next::_ =>
        if next ≠ lineFeed then malformed "carriage return not followed by line feed"
        else .complete line (start + line.length + 2)

def readLine (input : Bytes) (start : Nat) : LineResult := scanLine start [] (input.drop start)

def signed (negative : Bool) (size : Nat) : Int := if negative then -size else size

/-- The digits that `std::from_chars` matches behind an optional minus: their value unless
there are none or it is out of range, and what follows them. -/
def fromDigits (negative : Bool) (body : Bytes) : Option Int64 × Bytes :=
  let digits := body.takeWhile Decimal.isDigit
  let rest := body.dropWhile Decimal.isDigit
  let number := signed negative (Decimal.value digits)
  if digits = [] then (none,body)
  else if number < -2^63 ∨ 2^63 ≤ number then (none,rest)
  else (some (Int64.ofInt number),rest)

def fromChars (text : Bytes) : Option Int64 × Bytes :=
  if text.head? = some minus then fromDigits true text.tail else fromDigits false text

def parseInteger (text : Bytes) : Option Int64 :=
  if text = [] ∨ text.head? = some plus then none
  else match fromChars text with
    | (some number,[]) => some number
    | _ => none

def parseLineValue (input : Bytes) (isError : Bool) : ValueResult :=
  (readLine input 1).andThen fun line next =>
    if isError then .complete (.error line) next else .complete (.simple line) next

def parseRespInteger (input : Bytes) : ValueResult :=
  (readLine input 1).andThen fun line next =>
    match parseInteger line with
    | none => malformed "invalid or overflowing integer"
    | some number => .complete (.integer number) next

def sizeMax : Nat := 2^64 - 1

def parseBulk (input : Bytes) (limits : ParserLimits) : ValueResult :=
  (readLine input 1).andThen fun line next =>
    match parseInteger line with
    | none => malformed "invalid or overflowing bulk length"
    | some length =>
      if length = -1 then .complete (.bulk none) next
      else if length < 0 then malformed "illegal negative bulk length"
      else
        let size := length.toInt.toNat
        if size > limits.maxBulkSize then oversized "bulk string exceeds configured limit"
        else if size > sizeMax then oversized "bulk string length is not representable"
        else if size > input.length - next then .incomplete
        else
          let payloadEnd := next + size
          if payloadEnd = input.length then .incomplete
          else if input[payloadEnd]? ≠ some carriageReturn then malformed "bulk payload lacks terminating CRLF"
          else if payloadEnd + 1 = input.length then .incomplete
          else if input[payloadEnd + 1]? ≠ some lineFeed then malformed "bulk payload lacks terminating CRLF"
          else .complete (.bulk (some ((input.drop next).take size))) (payloadEnd + 2)

/-- The loop over the elements, with `parse_value` at the next depth. -/
def parseItems (parseItem : Bytes → ValueResult) (input : Bytes) : Nat → List RespValue → Nat → ValueResult
  | 0, values, consumed => .complete (.array (some values)) consumed
  | remaining+1, values, consumed =>
    (parseItem (input.drop consumed)).andThen fun value used =>
      parseItems parseItem input remaining (values ++ [value]) (consumed + used)

def parseArray (parseItem : Bytes → ValueResult) (input : Bytes) (depth : Nat) (limits : ParserLimits) :
    ValueResult :=
  (readLine input 1).andThen fun line next =>
    match parseInteger line with
    | none => malformed "invalid or overflowing array length"
    | some length =>
      if length < -1 then malformed "illegal negative array length"
      else if depth ≥ limits.maxDepth then .failed ⟨.tooDeep,"array nesting exceeds configured limit"⟩
      else if length = -1 then .complete (.array none) next
      else
        let size := length.toInt.toNat
        if size > limits.maxArraySize then oversized "array exceeds configured element limit"
        else if size > sizeMax then oversized "array length is not representable"
        else parseItems parseItem input size [] next

def dispatch (parseItem : Bytes → ValueResult) (input : Bytes) (depth : Nat) (limits : ParserLimits) :
    ValueResult :=
  match input with
  | [] => .incomplete
  | front::_ =>
    if front = plus then parseLineValue input false
    else if front = minus then parseLineValue input true
    else if front = colon then parseRespInteger input
    else if front = dollar then parseBulk input limits
    else if front = asterisk then parseArray parseItem input depth limits
    else malformed "unknown RESP type prefix"

/-- `fuel` bounds the array levels that may still be opened. -/
def parseFuel (limits : ParserLimits) : Nat → Nat → Bytes → ValueResult
  | 0, depth, input => dispatch (fun _ => .incomplete) input depth limits
  | fuel+1, depth, input => dispatch (parseFuel limits fuel (depth + 1)) input depth limits

def parseValue (input : Bytes) (depth : Nat) (limits : ParserLimits) : ValueResult :=
  parseFuel limits (limits.maxDepth - depth) depth input

theorem dispatch_limit (one two : Bytes → ValueResult) (input : Bytes) (depth : Nat) (limits : ParserLimits)
    (limit : limits.maxDepth ≤ depth) : dispatch one input depth limits = dispatch two input depth limits := by
  have arrays : parseArray one input depth limits = parseArray two input depth limits := by
    unfold parseArray
    simp only [ge_iff_le,if_pos limit]
  unfold dispatch
  rw [arrays]

/-- The recursion of the source. -/
theorem parseValue_eq (input : Bytes) (depth : Nat) (limits : ParserLimits) :
    parseValue input depth limits =
      dispatch (fun rest => parseValue rest (depth + 1) limits) input depth limits := by
  unfold parseValue
  cases levels : limits.maxDepth - depth with
  | zero =>
    rw [parseFuel]
    exact dispatch_limit _ _ input depth limits (by omega)
  | succ fuel =>
    rw [parseFuel,show limits.maxDepth - (depth + 1) = fuel by omega]

inductive ParseResult
  | complete (value : RespValue)
  | incomplete
  | failed (fault : Fault)

def ParseResult.status : ParseResult → ParseStatus
  | .complete _ => .complete
  | .incomplete => .incomplete
  | .failed ⟨.malformed,_⟩ => .malformed
  | .failed ⟨.oversized,_⟩ => .oversized
  | .failed ⟨.tooDeep,_⟩ => .tooDeep

structure Parser where
  limits : ParserLimits
  buffer : Bytes
  bufferOversized : Bool

namespace Parser

def new (limits : ParserLimits) : Parser := ⟨limits,[],false⟩

def feed (parser : Parser) (bytes : Bytes) : ParseStatus × Parser :=
  if parser.bufferOversized then (.oversized,parser)
  else if parser.buffer.length > parser.limits.maxBufferSize ∨
      bytes.length > parser.limits.maxBufferSize - parser.buffer.length then
    (.oversized,{parser with bufferOversized := true})
  else (.incomplete,{parser with buffer := parser.buffer ++ bytes})

def next (parser : Parser) : ParseResult × Parser :=
  if parser.bufferOversized then (.failed ⟨.oversized,"parser buffer exceeds configured limit"⟩,parser)
  else match parseValue parser.buffer 0 parser.limits with
    | .complete value consumed => (.complete value,{parser with buffer := parser.buffer.drop consumed})
    | .incomplete => (.incomplete,parser)
    | .failed fault => (.failed fault,parser)

end Parser
end NovaCache.Protocol
