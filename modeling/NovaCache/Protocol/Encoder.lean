import NovaCache.Persistence.Binary
import NovaCache.Decimal

/-! RESP values and their encoder. `std::to_chars` prints the shortest decimal form, which
fits its buffer of 32 characters. -/
namespace NovaCache.Protocol

inductive RespValue
  | simple (text : Bytes)
  | error (text : Bytes)
  | integer (number : Int64)
  | bulk (payload : Option Bytes)
  | array (items : Option (List RespValue))

def carriageReturn : UInt8 := 0x0D
def lineFeed : UInt8 := 0x0A
def crlf : Bytes := [carriageReturn,lineFeed]
def plus : UInt8 := 0x2B
def minus : UInt8 := 0x2D
def colon : UInt8 := 0x3A
def dollar : UInt8 := 0x24
def asterisk : UInt8 := 0x2A

/-- A line value holds neither of the two bytes that end a line. -/
def Clean (text : Bytes) : Prop := carriageReturn ∉ text ∧ lineFeed ∉ text

instance (text : Bytes) : Decidable (Clean text) := inferInstanceAs (Decidable (_ ∧ _))

def appendNumber (number : Int64) (output : Bytes) : Bytes :=
  output ++ (if number < 0 then [minus] else []) ++ Decimal.print number.toInt.natAbs

def appendSize (size : Nat) (output : Bytes) : Bytes := output ++ Decimal.print size

def appendLine (type : UInt8) (text output : Bytes) : Except Failure Bytes :=
  if ¬ Clean text then .error (.invalidArgument "RESP line values cannot contain CR or LF")
  else .ok (output ++ [type] ++ text ++ crlf)

mutual
def appendEncoded (value : RespValue) (output : Bytes) : Except Failure Bytes :=
  match value with
  | .simple text => appendLine plus text output
  | .error text => appendLine minus text output
  | .integer number => .ok (appendNumber number (output ++ [colon]) ++ crlf)
  | .bulk none => .ok (output ++ [dollar,minus,0x31] ++ crlf)
  | .bulk (some payload) => .ok (appendSize payload.length (output ++ [dollar]) ++ crlf ++ payload ++ crlf)
  | .array none => .ok (output ++ [asterisk,minus,0x31] ++ crlf)
  | .array (some items) => appendItems items (appendSize items.length (output ++ [asterisk]) ++ crlf)

def appendItems (items : List RespValue) (output : Bytes) : Except Failure Bytes :=
  match items with
  | [] => .ok output
  | item::rest => do
    let output ← appendEncoded item output
    appendItems rest output
end

def encode (value : RespValue) : Except Failure Bytes := appendEncoded value []

end NovaCache.Protocol
