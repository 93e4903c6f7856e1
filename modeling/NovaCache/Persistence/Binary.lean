import NovaCache.LittleEndian
import Mathlib.Data.UInt

/-! The binary primitives shared by the write-ahead log and the snapshot file.
A string view is the list of bytes it still covers. Leaving a view is undefined
behaviour in the source; here it is the separate failure `outOfRange`, so that
absence of such steps is a statement about results. -/
namespace NovaCache

abbrev Bytes := List UInt8

instance : LawfulBEq Bytes := inferInstance

inductive Failure
  | runtimeError (message : String)
  | systemError (operation : String)
  | invalidArgument (message : String)
  | outOfRange
  | unfinished
  deriving DecidableEq, Repr

namespace Persistence

def removePrefix (view : Bytes) (count : Nat) : Except Failure Bytes :=
  if count ≤ view.length then .ok (view.drop count) else .error .outOfRange

def appendU8 (out : Bytes) (value : UInt8) : Bytes := out ++ [value]
def appendU16 (out : Bytes) (value : UInt16) : Bytes := out ++ LittleEndian.encode 2 value.toNat
def appendU32 (out : Bytes) (value : UInt32) : Bytes := out ++ LittleEndian.encode 4 value.toNat
def appendU64 (out : Bytes) (value : UInt64) : Bytes := out ++ LittleEndian.encode 8 value.toNat
def appendI64 (out : Bytes) (value : Int64) : Bytes := appendU64 out value.toUInt64

/-- The size is narrowed to 32 bits exactly as `static_cast` does. -/
def appendBytes (out value : Bytes) : Bytes := appendU32 out (UInt32.ofNat value.length) ++ value

/-- Every fixed-width reader checks the size, assembles the number and drops the prefix. -/
def readLittleEndian (width : Nat) (message : String) (input : Bytes) : Except Failure (Nat × Bytes) :=
  if input.length < width then .error (.runtimeError message)
  else .ok (LittleEndian.decode (input.take width),input.drop width)

def readU8 (input : Bytes) : Except Failure (UInt8 × Bytes) := do
  let (value,rest) ← readLittleEndian 1 "truncated input while reading u8" input
  return (UInt8.ofNat value,rest)

def readU16 (input : Bytes) : Except Failure (UInt16 × Bytes) := do
  let (value,rest) ← readLittleEndian 2 "truncated input while reading u16" input
  return (UInt16.ofNat value,rest)

def readU32 (input : Bytes) : Except Failure (UInt32 × Bytes) := do
  let (value,rest) ← readLittleEndian 4 "truncated input while reading u32" input
  return (UInt32.ofNat value,rest)

def readU64 (input : Bytes) : Except Failure (UInt64 × Bytes) := do
  let (value,rest) ← readLittleEndian 8 "truncated input while reading u64" input
  return (UInt64.ofNat value,rest)

def readI64 (input : Bytes) : Except Failure (Int64 × Bytes) := do
  let (value,rest) ← readU64 input
  return (value.toInt64,rest)

def readBytes (input : Bytes) : Except Failure (Bytes × Bytes) := do
  let (length,input) ← readU32 input
  if input.length < length.toNat then
    throw (.runtimeError "truncated input while reading bytes")
  return (input.take length.toNat,input.drop length.toNat)

@[simp] theorem ok_bind {α β : Type} (value : α) (next : α → Except Failure β) :
    (Except.ok value >>= next) = next value := rfl

@[simp] theorem error_bind {α β : Type} (failure : Failure) (next : α → Except Failure β) :
    (Except.error failure >>= next) = .error failure := rfl

theorem bind_success {α β : Type} (first : Except Failure α) (next : α → Except Failure β)
    (result : β) (ok : (first >>= next) = .ok result) :
    ∃ value, first = .ok value ∧ next value = .ok result := by
  cases first with
  | error failure => simp at ok
  | ok value => exact ⟨value,rfl,ok⟩

theorem removePrefix_append (first rest : Bytes) :
    removePrefix (first ++ rest) first.length = .ok rest := by
  simp [removePrefix]

theorem readLittleEndian_encode (width value : Nat) (message : String) (rest : Bytes)
    (bound : value < 256^width) :
    readLittleEndian width message (LittleEndian.encode width value ++ rest) = .ok (value,rest) := by
  have size : (LittleEndian.encode width value).length = width := by simp
  rw [readLittleEndian,if_neg (by simp),List.take_left' size,List.drop_left' size,
    LittleEndian.decode_encode_of_lt width value bound]

theorem readLittleEndian_split (width : Nat) (message : String) (input : Bytes)
    (size : width ≤ input.length) :
    ∃ value, readLittleEndian width message input = .ok (value,input.drop width) ∧
      value < 256^width ∧ input = LittleEndian.encode width value ++ input.drop width := by
  have taken : (input.take width).length = width := by simp [size]
  refine ⟨LittleEndian.decode (input.take width),?_,?_,?_⟩
  · simp [readLittleEndian,Nat.not_lt.mpr size]
  · simpa [size] using LittleEndian.decode_lt (input.take width)
  · rw [LittleEndian.encode_decode_of_length width _ taken,List.take_append_drop]

@[simp] theorem readU8_append (value : UInt8) (rest : Bytes) :
    readU8 (value::rest) = .ok (value,rest) := by
  have encoded : value::rest = LittleEndian.encode 1 value.toNat ++ rest := by
    simp [LittleEndian.encode]
  rw [readU8,encoded,readLittleEndian_encode 1 _ _ _ value.toNat_lt]
  simp [pure,Except.pure]

@[simp] theorem readU16_append (value : UInt16) (rest : Bytes) :
    readU16 (LittleEndian.encode 2 value.toNat ++ rest) = .ok (value,rest) := by
  rw [readU16,readLittleEndian_encode 2 _ _ _ value.toNat_lt]
  simp [pure,Except.pure]

@[simp] theorem readU32_append (value : UInt32) (rest : Bytes) :
    readU32 (LittleEndian.encode 4 value.toNat ++ rest) = .ok (value,rest) := by
  rw [readU32,readLittleEndian_encode 4 _ _ _ value.toNat_lt]
  simp [pure,Except.pure]

@[simp] theorem readU64_append (value : UInt64) (rest : Bytes) :
    readU64 (LittleEndian.encode 8 value.toNat ++ rest) = .ok (value,rest) := by
  rw [readU64,readLittleEndian_encode 8 _ _ _ value.toNat_lt]
  simp [pure,Except.pure]

@[simp] theorem readI64_append (value : Int64) (rest : Bytes) :
    readI64 (LittleEndian.encode 8 value.toUInt64.toNat ++ rest) = .ok (value,rest) := by
  rw [readI64,readU64_append]
  simp [pure,Except.pure]

theorem readBytes_append (value rest : Bytes) (bound : value.length < 2^32) :
    readBytes (LittleEndian.encode 4 (UInt32.ofNat value.length).toNat ++ (value ++ rest)) =
      .ok (value,rest) := by
  have size : (UInt32.ofNat value.length).toNat = value.length := by
    rw [UInt32.toNat_ofNat',Nat.mod_eq_of_lt bound]
  rw [readBytes,readU32_append]
  simp [size,pure,Except.pure]

theorem readBytes_length {input value rest : Bytes} (read : readBytes input = .ok (value,rest)) :
    value.length < 2^32 := by
  obtain ⟨⟨length,input⟩,_,read⟩ := bind_success _ _ _ read
  dsimp only at read
  split at read
  · cases read
  · cases read
    rw [List.length_take]
    exact lt_of_le_of_lt (Nat.min_le_left _ _) length.toNat_lt

theorem readU32_short (input : Bytes) (short : input.length < 4) :
    readU32 input = .error (.runtimeError "truncated input while reading u32") := by
  simp [readU32,readLittleEndian,short]

theorem readU32_split (input : Bytes) (size : 4 ≤ input.length) :
    ∃ value, readU32 input = .ok (value,input.drop 4) ∧
      input = LittleEndian.encode 4 value.toNat ++ input.drop 4 := by
  obtain ⟨value,read,bound,split⟩ := readLittleEndian_split 4 "truncated input while reading u32" input size
  have same : (UInt32.ofNat value).toNat = value := by
    rw [UInt32.toNat_ofNat',Nat.mod_eq_of_lt (by simpa using bound)]
  refine ⟨UInt32.ofNat value,?_,?_⟩
  · simp [readU32,read,pure,Except.pure]
  · rw [same]
    exact split

theorem readU64_split (input : Bytes) (size : 8 ≤ input.length) :
    ∃ value, readU64 input = .ok (value,input.drop 8) ∧
      input = LittleEndian.encode 8 value.toNat ++ input.drop 8 := by
  obtain ⟨value,read,bound,split⟩ := readLittleEndian_split 8 "truncated input while reading u64" input size
  have same : (UInt64.ofNat value).toNat = value := by
    rw [UInt64.toNat_ofNat',Nat.mod_eq_of_lt (by simpa using bound)]
  refine ⟨UInt64.ofNat value,?_,?_⟩
  · simp [readU64,read,pure,Except.pure]
  · rw [same]
    exact split

theorem readU16_split (input : Bytes) (size : 2 ≤ input.length) :
    ∃ value, readU16 input = .ok (value,input.drop 2) ∧
      input = LittleEndian.encode 2 value.toNat ++ input.drop 2 := by
  obtain ⟨value,read,bound,split⟩ := readLittleEndian_split 2 "truncated input while reading u16" input size
  have same : (UInt16.ofNat value).toNat = value := by
    rw [UInt16.toNat_ofNat',Nat.mod_eq_of_lt (by simpa using bound)]
  refine ⟨UInt16.ofNat value,?_,?_⟩
  · simp [readU16,read,pure,Except.pure]
  · rw [same]
    exact split

end Persistence
end NovaCache
