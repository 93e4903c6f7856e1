import NovaCache.LittleEndian
import Mathlib.Data.Nat.Digits.Defs
import Mathlib.Logic.Function.Iterate

/-! A linear feedback shift register fed with bytes, low bit first. Shifting is linear in
exclusive or, and it loses nothing when the feedback word has its top bit set; so the
bytes of one register width act like a single word, and a change confined to them
cannot be undone by what is fed later. -/
namespace ShiftRegister
variable {width : Nat}

def shift (feedback state : BitVec width) : BitVec width :=
  if state.getLsbD 0 then feedback ^^^ (state >>> 1) else state >>> 1

def shifts (feedback : BitVec width) (count : Nat) (state : BitVec width) : BitVec width :=
  (shift feedback)^[count] state

def absorb (feedback state : BitVec width) (byte : UInt8) : BitVec width :=
  shifts feedback 8 (state ^^^ BitVec.ofNat width byte.toNat)

def absorbAll (feedback state : BitVec width) (bytes : List UInt8) : BitVec width :=
  bytes.foldl (absorb feedback) state

/-- One bit of input, which decides together with the bit that leaves. -/
def feed (feedback state : BitVec width) (bit : Bool) : BitVec width :=
  if state.getLsbD 0 ^^ bit then feedback ^^^ (state >>> 1) else state >>> 1

def feedAll (feedback state : BitVec width) (bits : List Bool) : BitVec width :=
  bits.foldl (feed feedback) state

/-- The low bits of a number, lowest first. -/
def lowBits (count value : Nat) : List Bool := (List.range count).map value.testBit

theorem shift_xor (feedback first second : BitVec width) :
    shift feedback (first ^^^ second) = shift feedback first ^^^ shift feedback second := by
  have cancel : feedback ^^^ (first >>> 1) ^^^ (feedback ^^^ (second >>> 1)) = first >>> 1 ^^^ second >>> 1 := by
    calc feedback ^^^ (first >>> 1) ^^^ (feedback ^^^ (second >>> 1))
        = (feedback ^^^ feedback) ^^^ (first >>> 1 ^^^ second >>> 1) := by ac_rfl
      _ = first >>> 1 ^^^ second >>> 1 := by rw [BitVec.xor_self,BitVec.zero_xor]
  simp only [shift,BitVec.getLsbD_xor,BitVec.ushiftRight_xor_distrib]
  cases first.getLsbD 0 with
  | false =>
    cases second.getLsbD 0 with
    | false => rfl
    | true =>
      change feedback ^^^ (first >>> 1 ^^^ second >>> 1) = first >>> 1 ^^^ (feedback ^^^ second >>> 1)
      ac_rfl
  | true =>
    cases second.getLsbD 0 with
    | false => exact (BitVec.xor_assoc _ _ _).symm
    | true => exact cancel.symm

theorem shift_eq_zero (feedback state : BitVec width) (top : feedback.msb = true)
    (zero : shift feedback state = BitVec.ofNat width 0) : state = BitVec.ofNat width 0 := by
  by_cases low : state.getLsbD 0 = true
  · -- The top bit of the result is that of the feedback word.
    rw [shift,if_pos low] at zero
    have high := congrArg BitVec.msb zero
    rw [BitVec.msb_xor,top,BitVec.msb_ushiftRight] at high
    simp at high
  · rw [shift,if_neg low] at zero
    apply BitVec.eq_of_getLsbD_eq
    intro index inside
    rw [BitVec.getLsbD_zero]
    cases index with
    | zero => simpa using low
    | succ index =>
      have bit := congrArg (fun word => word.getLsbD index) zero
      simpa [BitVec.getLsbD_ushiftRight,Nat.add_comm] using bit

theorem xor_eq_zero {first second : BitVec width} (same : first ^^^ second = BitVec.ofNat width 0) : first = second := by
  rw [← BitVec.xor_zero (x := first),← BitVec.xor_self (x := second),← BitVec.xor_assoc,same,BitVec.zero_xor]

theorem xor_not (state : BitVec width) : state ^^^ ~~~ state = BitVec.allOnes width := by
  rw [← BitVec.xor_allOnes,← BitVec.xor_assoc,BitVec.xor_self,BitVec.zero_xor]

theorem shift_injective (feedback : BitVec width) (top : feedback.msb = true) :
    Function.Injective (shift feedback) := by
  intro first second same
  apply xor_eq_zero
  apply shift_eq_zero feedback _ top
  rw [shift_xor,same,BitVec.xor_self]

theorem shifts_xor (feedback : BitVec width) (count : Nat) (first second : BitVec width) :
    shifts feedback count (first ^^^ second) = shifts feedback count first ^^^ shifts feedback count second := by
  induction count generalizing first second with
  | zero => rfl
  | succ count ih =>
    simp only [shifts,Function.iterate_succ_apply,shift_xor] at ih ⊢
    exact ih _ _

theorem shifts_injective (feedback : BitVec width) (top : feedback.msb = true) (count : Nat) :
    Function.Injective (shifts feedback count) :=
  (shift_injective feedback top).iterate count

theorem shifts_add (feedback : BitVec width) (first second : Nat) (state : BitVec width) :
    shifts feedback (first + second) state = shifts feedback second (shifts feedback first state) := by
  rw [Nat.add_comm]
  exact Function.iterate_add_apply _ second first state

/-- Without feedback the register only moves its bits down. -/
theorem shifts_clear (feedback : BitVec width) (count : Nat) (state : BitVec width)
    (clear : ∀ index < count, state.getLsbD index = false) : shifts feedback count state = state >>> count := by
  induction count with
  | zero => exact (BitVec.ushiftRight_zero _).symm
  | succ count ih =>
    have low : (state >>> count).getLsbD 0 = false := by
      rw [BitVec.getLsbD_ushiftRight]
      exact clear count (Nat.lt_succ_self count)
    rw [shifts_add,ih (fun index inside => clear index (by omega))]
    simp only [shifts,Function.iterate_one,shift,low,BitVec.shiftRight_add]
    rfl

/-- The low bits feed back, the others move down: what a table of the low bits relies on. -/
theorem shifts_split (feedback : BitVec width) (count : Nat) (state : BitVec width) :
    shifts feedback count state =
      shifts feedback count ((state.setWidth count).setWidth width) ^^^ (state >>> count) := by
  have parts : state = (state.setWidth count).setWidth width ^^^ ((state >>> count) <<< count) := by
    apply BitVec.eq_of_getLsbD_eq
    intro index inside
    simp only [BitVec.getLsbD_xor,BitVec.getLsbD_setWidth,BitVec.getLsbD_shiftLeft,BitVec.getLsbD_ushiftRight]
    by_cases low : index < count
    · simp [low,inside]
    · simp [low,inside,Nat.add_sub_cancel' (Nat.not_lt.mp low)]
  have clear : ∀ index < count, ((state >>> count) <<< count).getLsbD index = false := by
    intro index low
    simp [BitVec.getLsbD_shiftLeft,low]
  have down : ((state >>> count) <<< count) >>> count = state >>> count := by
    apply BitVec.eq_of_getLsbD_eq
    intro index inside
    simp only [BitVec.getLsbD_ushiftRight,BitVec.getLsbD_shiftLeft]
    by_cases within : count + index < width
    · simp [within]
    · simp [within,BitVec.getLsbD_of_ge state _ (Nat.not_lt.mp within)]
  nth_rewrite 1 [parts]
  rw [shifts_xor,shifts_clear feedback count _ clear,down]

/-- A word added after some shifts might have been added before them, further up. -/
theorem shifts_later (feedback : BitVec width) (count value : Nat) (state : BitVec width)
    (inside : value * 2^count < 2^width) :
    shifts feedback count state ^^^ BitVec.ofNat width value =
      shifts feedback count (state ^^^ BitVec.ofNat width (value * 2^count)) := by
  have clear : ∀ index < count, (BitVec.ofNat width (value * 2^count)).getLsbD index = false := by
    intro index low
    rw [BitVec.getLsbD_ofNat,Nat.testBit_mul_two_pow]
    simp [Nat.not_le.mpr low]
  have down : BitVec.ofNat width (value * 2^count) >>> count = BitVec.ofNat width value := by
    apply BitVec.eq_of_toNat_eq
    have small : value < 2^width := lt_of_le_of_lt (Nat.le_mul_of_pos_right _ (Nat.two_pow_pos _)) inside
    rw [BitVec.toNat_ushiftRight,BitVec.toNat_ofNat,BitVec.toNat_ofNat,Nat.mod_eq_of_lt inside,
      Nat.mod_eq_of_lt small,Nat.shiftRight_eq_div_pow,Nat.mul_div_cancel _ (Nat.two_pow_pos _)]
  rw [shifts_xor,shifts_clear feedback count _ clear,down]

theorem low_xor_high {low count : Nat} (bound : low < 2^count) (high : Nat) :
    low ^^^ high * 2^count = low + 2^count * high := by
  apply Nat.eq_of_testBit_eq
  intro index
  rw [Nat.testBit_xor,Nat.testBit_mul_two_pow,Nat.add_comm,Nat.testBit_two_pow_mul_add high bound]
  split
  · next below => simp [Nat.not_le.mpr below]
  · next above =>
    have clear : low.testBit index = false :=
      Nat.testBit_lt_two_pow (lt_of_lt_of_le bound (Nat.pow_le_pow_right (by decide) (Nat.not_lt.mp above)))
    simp [clear,Nat.not_lt.mp above]

/-- A bit fed in is a bit added below and shifted out. -/
theorem feed_eq_shift (feedback state : BitVec width) (bit : Bool) :
    feed feedback state bit = shift feedback (state ^^^ BitVec.ofNat width bit.toNat) := by
  cases width with
  | zero => exact Subsingleton.elim _ _
  | succ width =>
    have low : (BitVec.ofNat (width + 1) bit.toNat).getLsbD 0 = bit := by
      cases bit <;> simp
    have away : BitVec.ofNat (width + 1) bit.toNat >>> 1 = BitVec.ofNat (width + 1) 0 := by
      apply BitVec.eq_of_getLsbD_eq
      intro index inside
      cases bit <;> simp
    rw [feed,shift,BitVec.getLsbD_xor,low,BitVec.ushiftRight_xor_distrib,away,BitVec.xor_zero]

/-- Up to one register width, bits act like the number they spell. -/
theorem feedAll_word (feedback state : BitVec width) (bits : List Bool) (fits : bits.length ≤ width) :
    feedAll feedback state bits =
      shifts feedback bits.length (state ^^^ BitVec.ofNat width (Nat.ofDigits 2 (bits.map Bool.toNat))) := by
  induction bits generalizing state with
  | nil => simp [feedAll,shifts]
  | cons bit rest ih =>
    rw [List.length_cons] at fits
    have inside : Nat.ofDigits 2 (rest.map Bool.toNat) * 2^1 < 2^width := by
      have bound : Nat.ofDigits 2 (rest.map Bool.toNat) < 2^rest.length := by
        have digits : ∀ digit ∈ rest.map Bool.toNat, digit < 2 := by
          intro digit member
          obtain ⟨other,_,rfl⟩ := List.mem_map.mp member
          exact other.toNat_lt
        exact List.length_map Bool.toNat ▸ Nat.ofDigits_lt_base_pow_length (by decide) digits
      calc Nat.ofDigits 2 (rest.map Bool.toNat) * 2^1 < 2^rest.length * 2^1 := by omega
        _ = 2^(rest.length + 1) := (Nat.pow_add ..).symm
        _ ≤ 2^width := Nat.pow_le_pow_right (by decide) fits
    have apart : BitVec.ofNat width bit.toNat ^^^ BitVec.ofNat width (Nat.ofDigits 2 (rest.map Bool.toNat) * 2^1) =
        BitVec.ofNat width (Nat.ofDigits 2 ((bit::rest).map Bool.toNat)) := by
      rw [← BitVec.ofNat_xor,low_xor_high bit.toNat_lt,List.map_cons,Nat.ofDigits_cons]
      rfl
    change feedAll feedback (feed feedback state bit) rest = _
    have once : ∀ word, shift feedback word = shifts feedback 1 word := fun _ => rfl
    rw [ih _ (by omega),feed_eq_shift,once,shifts_later feedback 1 _ _ inside,BitVec.xor_assoc,apart,← shifts_add,
      List.length_cons,Nat.add_comm]

theorem ofDigits_lowBits (count value : Nat) :
    Nat.ofDigits 2 ((lowBits count value).map Bool.toNat) = value % 2^count := by
  induction count generalizing value with
  | zero => simp [lowBits,Nat.mod_one]
  | succ count ih =>
    have halves : lowBits (count + 1) value = value.testBit 0::lowBits count (value / 2) := by
      simp [lowBits,List.range_succ_eq_map,Nat.testBit_succ]
    have lowest : (value.testBit 0).toNat = value % 2 := by
      rw [Nat.toNat_testBit,Nat.pow_zero,Nat.div_one]
    rw [halves,List.map_cons,Nat.ofDigits_cons,ih,Nat.pow_succ,Nat.mul_comm (2^count),Nat.mod_mul,lowest]

/-- A byte is its eight bits, lowest first. -/
theorem absorb_eq_feedAll (feedback state : BitVec width) (byte : UInt8) (fits : 8 ≤ width) :
    absorb feedback state byte = feedAll feedback state (lowBits 8 byte.toNat) := by
  have size : (lowBits 8 byte.toNat).length = 8 := rfl
  rw [feedAll_word _ _ _ (size ▸ fits),ofDigits_lowBits,Nat.mod_eq_of_lt byte.toNat_lt,size,absorb]

theorem absorbAll_eq_feedAll (feedback state : BitVec width) (bytes : List UInt8) (fits : 8 ≤ width) :
    absorbAll feedback state bytes = feedAll feedback state (bytes.flatMap fun byte => lowBits 8 byte.toNat) := by
  induction bytes generalizing state with
  | nil => rfl
  | cons byte rest ih =>
    rw [List.flatMap_cons,feedAll,List.foldl_append]
    change absorbAll feedback (absorb feedback state byte) rest =
      feedAll feedback (feedAll feedback state (lowBits 8 byte.toNat)) _
    rw [ih,absorb_eq_feedAll feedback state byte fits]

/-- Up to one register width, bytes act like the little-endian word they spell. -/
theorem absorbAll_word (feedback state : BitVec width) (bytes : List UInt8) (fits : 8 * bytes.length ≤ width) :
    absorbAll feedback state bytes =
      shifts feedback (8 * bytes.length) (state ^^^ BitVec.ofNat width (LittleEndian.decode bytes)) := by
  induction bytes generalizing state with
  | nil => simp [absorbAll,shifts,LittleEndian.decode]
  | cons byte rest ih =>
    rw [List.length_cons] at fits
    have inside : LittleEndian.decode rest * 2^8 < 2^width := by
      have bound := LittleEndian.decode_lt rest
      rw [show 256 = 2^8 by rfl,← Nat.pow_mul] at bound
      calc LittleEndian.decode rest * 2^8 < 2^(8 * rest.length) * 2^8 := by omega
        _ = 2^(8 * (rest.length + 1)) := by rw [← Nat.pow_add]; rfl
        _ ≤ 2^width := Nat.pow_le_pow_right (by decide) fits
    have apart : BitVec.ofNat width byte.toNat ^^^ BitVec.ofNat width (LittleEndian.decode rest * 2^8) =
        BitVec.ofNat width (LittleEndian.decode (byte::rest)) := by
      rw [← BitVec.ofNat_xor,LittleEndian.decode,low_xor_high byte.toNat_lt]
      rfl
    change absorbAll feedback (absorb feedback state byte) rest = _
    rw [ih _ (by omega),absorb,shifts_later feedback 8 _ _ inside,BitVec.xor_assoc,apart,← shifts_add,
      List.length_cons]
    congr 1
    omega

theorem absorb_injective (feedback : BitVec width) (top : feedback.msb = true) (byte : UInt8) :
    Function.Injective (fun state => absorb feedback state byte) := by
  intro first second same
  have equal := shifts_injective feedback top 8 same
  exact (BitVec.xor_left_inj _).mp equal

theorem absorbAll_injective (feedback : BitVec width) (top : feedback.msb = true) (bytes : List UInt8) :
    Function.Injective (fun state => absorbAll feedback state bytes) := by
  induction bytes with
  | nil => exact fun _ _ same => same
  | cons byte rest ih => exact ih.comp (absorb_injective feedback top byte)

theorem absorbAll_append (feedback state : BitVec width) (first second : List UInt8) :
    absorbAll feedback state (first ++ second) = absorbAll feedback (absorbAll feedback state first) second :=
  List.foldl_append

theorem word_injective (first second : List UInt8) (size : first.length = second.length)
    (fits : 8 * first.length ≤ width)
    (same : BitVec.ofNat width (LittleEndian.decode first) = BitVec.ofNat width (LittleEndian.decode second)) :
    first = second := by
  have bound : ∀ bytes : List UInt8, bytes.length = first.length → LittleEndian.decode bytes < 2^width := by
    intro bytes equal
    calc LittleEndian.decode bytes < 256^bytes.length := LittleEndian.decode_lt bytes
      _ = 2^(8 * first.length) := by rw [equal,show 256 = 2^8 by rfl,← Nat.pow_mul]
      _ ≤ 2^width := Nat.pow_le_pow_right (by decide) fits
  have decoded := congrArg BitVec.toNat same
  rw [BitVec.toNat_ofNat,BitVec.toNat_ofNat,Nat.mod_eq_of_lt (bound first rfl),
    Nat.mod_eq_of_lt (bound second size.symm)] at decoded
  rw [← LittleEndian.encode_decode first,← LittleEndian.encode_decode second,decoded,size]

/-- A change confined to one register width leaves a different state behind. -/
theorem absorbAll_window (feedback state : BitVec width) (top : feedback.msb = true)
    (before first second after : List UInt8) (size : first.length = second.length)
    (fits : 8 * first.length ≤ width)
    (same : absorbAll feedback state (before ++ (first ++ after)) =
      absorbAll feedback state (before ++ (second ++ after))) : first = second := by
  simp only [absorbAll_append] at same
  have middle := absorbAll_injective feedback top after same
  rw [absorbAll_word _ _ first fits,absorbAll_word _ _ second (size ▸ fits),size] at middle
  have words := shifts_injective feedback top _ middle
  exact word_injective first second size fits ((BitVec.xor_right_inj _).mp words)

/-- A complemented checksum behind its content drives the register to a fixed state. -/
theorem absorbAll_checksum (feedback state : BitVec width) (content trailer : List UInt8)
    (whole : 8 * trailer.length = width)
    (checked : BitVec.ofNat width (LittleEndian.decode trailer) = ~~~ absorbAll feedback state content) :
    absorbAll feedback state (content ++ trailer) = shifts feedback width (BitVec.allOnes width) := by
  rw [absorbAll_append,absorbAll_word _ _ trailer whole.le,checked,whole,xor_not]

/-- Two contents with their checksums never differ in one register width only. -/
theorem checksum_detects (feedback state : BitVec width) (top : feedback.msb = true)
    (content content' trailer trailer' before first second after : List UInt8)
    (whole : 8 * trailer.length = width) (whole' : 8 * trailer'.length = width)
    (checked : BitVec.ofNat width (LittleEndian.decode trailer) = ~~~ absorbAll feedback state content)
    (checked' : BitVec.ofNat width (LittleEndian.decode trailer') = ~~~ absorbAll feedback state content')
    (split : content ++ trailer = before ++ (first ++ after))
    (split' : content' ++ trailer' = before ++ (second ++ after))
    (size : first.length = second.length) (fits : 8 * first.length ≤ width) : first = second := by
  have fixed := absorbAll_checksum feedback state content trailer whole checked
  have fixed' := absorbAll_checksum feedback state content' trailer' whole' checked'
  rw [split] at fixed
  rw [split'] at fixed'
  exact absorbAll_window feedback state top before first second after size fits (fixed.trans fixed'.symm)

end ShiftRegister
