import Mathlib.Data.List.Basic
import Mathlib.Tactic.Ring

/-! Fixed-width little-endian numbers over lists of bytes. Nothing here depends on
a particular file format: the width is a parameter and decoding is total. -/
namespace LittleEndian

def encode : Nat → Nat → List UInt8
  | 0, _ => []
  | width+1, value => UInt8.ofNat value :: encode width (value / 256)

def decode : List UInt8 → Nat
  | [] => 0
  | byte::rest => byte.toNat + 256 * decode rest

@[simp] theorem encode_length (width value : Nat) : (encode width value).length = width := by
  induction width generalizing value with
  | zero => rfl
  | succ width ih => simp [encode,ih]

theorem decode_lt (bytes : List UInt8) : decode bytes < 256^bytes.length := by
  induction bytes with
  | nil => simp [decode]
  | cons byte rest ih =>
    have bound := byte.toNat_lt
    rw [decode,List.length_cons,Nat.pow_succ]
    omega

theorem decode_encode (width value : Nat) : decode (encode width value) = value % 256^width := by
  induction width generalizing value with
  | zero => simp [encode,decode,Nat.mod_one]
  | succ width ih =>
    have low : (UInt8.ofNat value).toNat = value % 256 := by simp
    rw [encode,decode,low,ih,Nat.pow_succ,Nat.mul_comm (256^width),Nat.mod_mul]

theorem decode_encode_of_lt (width value : Nat) (bound : value < 256^width) :
    decode (encode width value) = value := by
  rw [decode_encode,Nat.mod_eq_of_lt bound]

theorem encode_decode (bytes : List UInt8) : encode bytes.length (decode bytes) = bytes := by
  induction bytes with
  | nil => rfl
  | cons byte rest ih =>
    have bound := byte.toNat_lt
    have high : (byte.toNat + 256 * decode rest) / 256 = decode rest := by omega
    have low : UInt8.ofNat (byte.toNat + 256 * decode rest) = byte := by
      apply UInt8.toNat_inj.mp
      simp only [UInt8.toNat_ofNat']
      omega
    rw [decode,List.length_cons,encode,low,high,ih]

theorem encode_decode_of_length (width : Nat) (bytes : List UInt8) (size : bytes.length = width) :
    encode width (decode bytes) = bytes := by
  rw [← size,encode_decode]

end LittleEndian
