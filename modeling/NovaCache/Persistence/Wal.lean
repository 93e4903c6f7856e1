import NovaCache.Persistence.Crc32

/-! The write-ahead log writer: the file behind the descriptor, `write_all` against
arbitrary results of the system call, the record encoding, and the recovery scan
with its 32-bit length arithmetic. Opening, seeking, reading back and truncating
the file are assumed to succeed; writes and `fsync` may fail. -/
namespace NovaCache.Persistence

/-- The bytes of a file together with the position of the open descriptor. -/
structure File where
  bytes : Bytes
  position : Nat
  deriving DecidableEq, Repr

namespace File

/-- A write past the end leaves a gap of zeros, as POSIX requires. -/
def write (file : File) (data : Bytes) : File :=
  ⟨file.bytes.take file.position ++ List.replicate (file.position - file.bytes.length) 0 ++ data ++
    file.bytes.drop (file.position + data.length),file.position + data.length⟩

def truncate (file : File) (size : Nat) : File :=
  {file with bytes := file.bytes.take size ++ List.replicate (size - file.bytes.length) 0}

def seek (file : File) (position : Nat) : File := {file with position := position}

def seekEnd (file : File) : File := {file with position := file.bytes.length}

end File

/-- What one call of `::write` may report; `interrupted` is `EINTR`. -/
inductive WriteResult
  | wrote (count : Nat)
  | interrupted
  | failed
  deriving DecidableEq, Repr

/-- `write_all`: the listed results answer the successive calls of `::write`, and
once the list is used up the remaining bytes are taken in one call. -/
def writeAll (shortWrite : String) (results : List WriteResult) (file : File) (bytes : Bytes) :
    Except Failure Unit × File :=
  if bytes.isEmpty then (.ok (),file)
  else match results with
    | [] => (.ok (),file.write bytes)
    | .interrupted::rest => writeAll shortWrite rest file bytes
    | .failed::_ => (.error (.systemError "write"),file)
    | .wrote count::rest =>
      if count = 0 then (.error (.runtimeError shortWrite),file)
      else writeAll shortWrite rest (file.write (bytes.take count)) (bytes.drop count)

/-- A scoped enumeration over `std::uint16_t` holds every 16-bit value, and recovery
casts an unchecked number into it; the three enumerators are named below. -/
structure WalOpcode where
  code : UInt16
  deriving DecidableEq, Repr

namespace WalOpcode

def set : WalOpcode := ⟨1⟩
def del : WalOpcode := ⟨2⟩
def expire : WalOpcode := ⟨3⟩

end WalOpcode

structure WalRecord where
  offset : UInt64
  opcode : WalOpcode
  payload : Bytes
  deriving DecidableEq, Repr

namespace WalWriter

/-- `NCWAL` padded to eight bytes with zeros. -/
def magic : Bytes := [0x4E,0x43,0x57,0x41,0x4C,0,0,0]
def version : UInt32 := 1

end WalWriter

/-- `isOpen` is `fd_ >= 0`; the file's bytes are what is on disk either way. -/
structure WalWriter where
  file : File
  isOpen : Bool
  lastOffset : UInt64
  deriving DecidableEq, Repr

def encodeRecordBody (offset : UInt64) (opcode : WalOpcode) (payload : Bytes) : Bytes :=
  appendU16 (appendU64 [] offset) opcode.code ++ payload

def encodeRecord (record : WalRecord) : Bytes :=
  let body := encodeRecordBody record.offset record.opcode record.payload
  appendU32 (appendU32 [] (UInt32.ofNat body.length) ++ body) (crc32 body)

structure Scan where
  cursor : Bytes
  validEnd : Nat
  lastOffset : UInt64
  records : List WalRecord
  deriving DecidableEq, Repr

/-- One iteration of the record loop; `none` is `break`. The two sums are computed in
32 bits, so they wrap, and `substr` clamps while `remove_prefix` does not. -/
def recordStep (scan : Scan) : Except Failure (Option Scan) :=
  match readU32 scan.cursor with
  | .error _ => .ok none
  | .ok (length,probe) =>
    if length < 10 ∨ probe.length < (length + 4).toNat then .ok none
    else do
      let body := probe.take length.toNat
      let probe ← removePrefix probe length.toNat
      let (expected,_) ← readU32 probe
      if expected ≠ crc32 body then return none
      let (offset,bodyView) ← readU64 body
      let (opcode,bodyView) ← readU16 bodyView
      if offset ≤ scan.lastOffset then
        throw (.runtimeError "WAL offsets are not strictly increasing")
      let consumed := (4 + length + 4).toNat
      let cursor ← removePrefix scan.cursor consumed
      return some ⟨cursor,scan.validEnd + consumed,offset,
        scan.records ++ [⟨offset,⟨opcode⟩,bodyView⟩]⟩

/-- The record loop with a bound on its iterations; running out of them is reported
as `unfinished`, never as a result. -/
def recordLoop : Nat → Scan → Except Failure Scan
  | 0, _ => .error .unfinished
  | fuel+1, scan =>
    if scan.cursor.length < 4 then .ok scan
    else match recordStep scan with
      | .error failure => .error failure
      | .ok none => .ok scan
      | .ok (some next) => recordLoop fuel next

namespace WalWriter

def header : Bytes := appendU32 (appendU32 magic version) 0

def writeHeaderUnlocked (results : List WriteResult) (file : File) : Except Failure Unit × File :=
  match writeAll "short write to WAL" results (file.seek 0) header with
  | (.error failure,file) => (.error failure,file)
  | (.ok (),file) => (.ok (),file.seekEnd)

/-- A missing, short or foreign file is replaced by a fresh header. -/
def restart (file : File) : Except Failure (List WalRecord × WalWriter) :=
  match writeHeaderUnlocked [] file with
  | (.error failure,_) => .error failure
  | (.ok (),file) => .ok ([],⟨file,true,0⟩)

def openAndRecover (content : Bytes) : Except Failure (List WalRecord × WalWriter) :=
  let file : File := ⟨content,content.length⟩
  if content.length = 0 then restart file
  else if content.length < 16 then restart (file.truncate 0)
  else if ¬ magic.isPrefixOf content ∨ content.length < 16 then restart (file.truncate 0)
  else do
    let cursor ← removePrefix content 8
    let (fileVersion,cursor) ← readU32 cursor
    let (_,cursor) ← readU32 cursor
    if fileVersion ≠ version then throw (.runtimeError "unsupported WAL version")
    let scan ← recordLoop (cursor.length + 2) ⟨cursor,16,0,[]⟩
    let file := if content.length ≠ scan.validEnd then file.truncate scan.validEnd else file
    return (scan.records,⟨file.seekEnd,true,scan.lastOffset⟩)

/-- On failure the descriptor keeps whatever part of the record was stored. -/
def append (results : List WriteResult) (writer : WalWriter) (opcode : WalOpcode) (payload : Bytes) :
    Except Failure UInt64 × WalWriter :=
  if ¬ writer.isOpen then (.error (.runtimeError "WAL is not open"),writer)
  else
    let offset := writer.lastOffset + 1
    match writeAll "short write to WAL" results writer.file (encodeRecord ⟨offset,opcode,payload⟩) with
    | (.error failure,file) => (.error failure,{writer with file := file})
    | (.ok (),file) => (.ok offset,{writer with file := file, lastOffset := offset})

def sync (fsync : Bool) (writer : WalWriter) : Except Failure Unit :=
  if ¬ writer.isOpen then .error (.runtimeError "WAL is not open")
  else if fsync then .ok () else .error (.systemError "fsync(WAL)")

/-- The offset is set before the last `fsync`, whose failure therefore keeps it. -/
def truncateAfter (results : List WriteResult) (fsync : Bool) (writer : WalWriter) (lastIncludedOffset : UInt64) :
    Except Failure Unit × WalWriter :=
  if ¬ writer.isOpen then (.error (.runtimeError "WAL is not open"),writer)
  else match writeHeaderUnlocked results (writer.file.truncate 0) with
    | (.error failure,file) => (.error failure,{writer with file := file})
    | (.ok (),file) =>
      let rotated := {writer with file := file, lastOffset := lastIncludedOffset}
      if fsync then (.ok (),rotated) else (.error (.systemError "fsync(WAL rotate)"),rotated)

end WalWriter

def encodeSetPayload (key value : Bytes) (expiryUnixMs : Option Int64) : Bytes :=
  let payload := appendBytes (appendBytes [] key) value
  match expiryUnixMs with
  | none => appendU8 payload 0
  | some expiry => appendI64 (appendU8 payload 1) expiry

def encodeDelPayload (keys : List Bytes) : Bytes :=
  keys.foldl appendBytes (appendU32 [] (UInt32.ofNat keys.length))

def encodeExpirePayload (key : Bytes) (expiryUnixMs : Int64) : Bytes :=
  appendI64 (appendBytes [] key) expiryUnixMs

end NovaCache.Persistence
