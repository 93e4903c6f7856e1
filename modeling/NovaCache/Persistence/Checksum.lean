import NovaCache.ShiftRegister
import NovaCache.Persistence.Crc32

/-! The table-driven checksum is the register of `ShiftRegister` with a 32-bit word of
feedback. Reading the bytes bit by bit, lowest first, gives the reflected CRC-32. -/
namespace NovaCache.Persistence

def polynomial : BitVec 32 := 0xEDB88320#32

theorem polynomial_top : polynomial.msb = true := by decide

theorem odd_iff (crc : UInt32) : crc &&& 1 ≠ 0 ↔ crc.toBitVec.getLsbD 0 = true := by
  have masked : (crc &&& 1).toBitVec = BitVec.setWidth 32 (BitVec.ofBool (crc.toBitVec.getLsbD 0)) := by
    rw [UInt32.toBitVec_and]
    exact BitVec.and_one_eq_setWidth_ofBool_getLsbD
  rw [ne_eq,← UInt32.toBitVec_inj,masked]
  cases crc.toBitVec.getLsbD 0 <;> decide

theorem crcBit_toBitVec (crc : UInt32) :
    (crcBit crc).toBitVec = ShiftRegister.shift polynomial crc.toBitVec := by
  simp only [crcBit,ShiftRegister.shift,odd_iff]
  split
  · rw [UInt32.toBitVec_xor,UInt32.toBitVec_shiftRight]
    rfl
  · rw [UInt32.toBitVec_shiftRight]
    rfl

theorem crcBits_toBitVec (count : Nat) (crc : UInt32) :
    (Nat.repeat crcBit count crc).toBitVec = ShiftRegister.shifts polynomial count crc.toBitVec := by
  induction count with
  | zero => rfl
  | succ count ih =>
    rw [ShiftRegister.shifts,Function.iterate_succ_apply',Nat.repeat,crcBit_toBitVec,ih]
    rfl

theorem byte_high (byte : UInt8) : BitVec.ofNat 32 byte.toNat >>> 8 = 0#32 := by
  apply BitVec.eq_of_toNat_eq
  have bound := byte.toNat_lt
  rw [BitVec.toNat_ushiftRight,BitVec.toNat_ofNat,Nat.shiftRight_eq_div_pow]
  simp
  omega

theorem crcTable_get (index : Fin 256) : crcTable.get index = Nat.repeat crcBit 8 (UInt32.ofNat index.val) := by
  change crcTable[index.val] = _
  rw [crcTable,Vector.getElem_ofFn]

/-- One byte through the table is one byte through the register. -/
theorem crcStep_toBitVec (crc : UInt32) (byte : UInt8) :
    (crcTable.get ⟨(crc ^^^ byte.toUInt32).toUInt8.toNat,(crc ^^^ byte.toUInt32).toUInt8.toNat_lt⟩ ^^^
      (crc >>> 8)).toBitVec = ShiftRegister.absorb polynomial crc.toBitVec byte := by
  have word : byte.toUInt32.toBitVec = BitVec.ofNat 32 byte.toNat := by
    apply BitVec.eq_of_toNat_eq
    simp
  have index : (UInt32.ofNat (crc ^^^ byte.toUInt32).toUInt8.toNat).toBitVec =
      ((crc.toBitVec ^^^ BitVec.ofNat 32 byte.toNat).setWidth 8).setWidth 32 := by
    rw [← word,← UInt32.toBitVec_xor]
    apply BitVec.eq_of_toNat_eq
    simp
  rw [UInt32.toBitVec_xor,crcTable_get,crcBits_toBitVec,index,ShiftRegister.absorb,
    ShiftRegister.shifts_split polynomial 8 (crc.toBitVec ^^^ BitVec.ofNat 32 byte.toNat),
    BitVec.ushiftRight_xor_distrib,byte_high,BitVec.xor_zero,UInt32.toBitVec_shiftRight]
  rfl

theorem crcFold_toBitVec (data : Bytes) (crc : UInt32) :
    (data.foldl (fun (crc : UInt32) byte =>
      let index := (crc ^^^ byte.toUInt32).toUInt8
      crcTable.get ⟨index.toNat,index.toNat_lt⟩ ^^^ (crc >>> 8)) crc).toBitVec =
      ShiftRegister.absorbAll polynomial crc.toBitVec data := by
  induction data generalizing crc with
  | nil => rfl
  | cons byte rest ih =>
    rw [List.foldl_cons,ih]
    exact congrArg (fun state => ShiftRegister.absorbAll polynomial state rest) (crcStep_toBitVec crc byte)

theorem crc32_toBitVec (data : Bytes) :
    (crc32 data).toBitVec = ~~~ ShiftRegister.absorbAll polynomial (BitVec.allOnes 32) data := by
  rw [crc32,crc32Update,UInt32.toBitVec_not,crcFold_toBitVec]
  rfl

/-- One step of the reflected checksum: a bit of the input against the lowest bit of the
remainder. -/
def crcFeed (crc : UInt32) (bit : Bool) : UInt32 :=
  if decide (crc &&& 1 ≠ 0) ^^ bit then (0xEDB88320 : UInt32) ^^^ (crc >>> 1) else crc >>> 1

/-- CRC-32 as it is specified: the bits of each byte from the lowest on, the remainder
initially all ones and complemented at the end. -/
def bitwiseCrc32 (data : Bytes) : UInt32 :=
  (data.flatMap fun byte => ShiftRegister.lowBits 8 byte.toNat).foldl crcFeed 0xFFFFFFFF ^^^ 0xFFFFFFFF

theorem crcFeed_toBitVec (crc : UInt32) (bit : Bool) :
    (crcFeed crc bit).toBitVec = ShiftRegister.feed polynomial crc.toBitVec bit := by
  have low : decide (crc &&& 1 ≠ 0) = crc.toBitVec.getLsbD 0 := by
    rw [Bool.eq_iff_iff,decide_eq_true_iff]
    exact odd_iff crc
  rw [crcFeed,ShiftRegister.feed,low]
  split
  · rw [UInt32.toBitVec_xor,UInt32.toBitVec_shiftRight]
    rfl
  · rw [UInt32.toBitVec_shiftRight]
    rfl

theorem crcFeeds_toBitVec (bits : List Bool) (crc : UInt32) :
    (bits.foldl crcFeed crc).toBitVec = ShiftRegister.feedAll polynomial crc.toBitVec bits := by
  induction bits generalizing crc with
  | nil => rfl
  | cons bit rest ih =>
    rw [List.foldl_cons,ih,crcFeed_toBitVec]
    rfl

/-- The checksum of a string in two parts goes on from that of the first. -/
theorem crc32Update_append (crc : UInt32) (first second : Bytes) :
    crc32Update (crc32Update crc first) second = crc32Update crc (first ++ second) := by
  simp only [crc32Update,UInt32.not_not,List.foldl_append]

/-- The table-driven checksum is the bitwise one, and it can be computed in parts. -/
theorem crc32_bitwise (data first second : Bytes) :
    crc32 data = bitwiseCrc32 data ∧ crc32Update (crc32 first) second = crc32 (first ++ second) := by
  refine ⟨?_,crc32Update_append 0 first second⟩
  apply UInt32.toBitVec_inj.mp
  rw [crc32_toBitVec,ShiftRegister.absorbAll_eq_feedAll _ _ _ (by decide),bitwiseCrc32,UInt32.toBitVec_xor,
    crcFeeds_toBitVec]
  exact BitVec.xor_allOnes.symm

example : bitwiseCrc32 [0x31,0x32,0x33,0x34,0x35,0x36,0x37,0x38,0x39] = 0xCBF43926 := by decide +kernel

end NovaCache.Persistence
