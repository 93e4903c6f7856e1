import Mathlib.Data.Nat.Digits.Lemmas

/-! Decimal digits as ASCII bytes: the value of a digit string and the shortest digit
string of a value. -/
namespace Decimal

def isDigit (byte : UInt8) : Bool := 48 ≤ byte && byte ≤ 57

def value (digits : List UInt8) : Nat := digits.foldl (fun total byte => 10 * total + (byte.toNat - 48)) 0

def digit (number : Nat) : UInt8 := UInt8.ofNat (48 + number)

def print (number : Nat) : List UInt8 :=
  if number = 0 then [48] else ((Nat.digits 10 number).map digit).reverse

theorem toNat_digit (number : Nat) (bound : number < 10) : (digit number).toNat = 48 + number := by
  rw [digit,UInt8.toNat_ofNat']
  omega

theorem isDigit_digit (number : Nat) (bound : number < 10) : isDigit (digit number) = true := by
  have read := toNat_digit number bound
  simp only [isDigit,Bool.and_eq_true,decide_eq_true_eq,UInt8.le_iff_toNat_le,read]
  exact ⟨Nat.le_add_right 48 number,by change 48 + number ≤ 57; omega⟩

theorem print_ne_nil (number : Nat) : print number ≠ [] := by
  unfold print
  split
  · simp
  · next positive => simpa [Nat.digits_eq_nil_iff_eq_zero] using positive

theorem print_digits (number : Nat) (byte : UInt8) (member : byte ∈ print number) : isDigit byte = true := by
  unfold print at member
  split at member
  · rw [List.mem_singleton.mp member]
    rfl
  · obtain ⟨number,listed,rfl⟩ := List.mem_map.mp (List.mem_reverse.mp member)
    exact isDigit_digit number (Nat.digits_lt_base (by decide) listed)

theorem value_digits (digits : List Nat) (bounds : ∀ number ∈ digits, number < 10) :
    value (digits.map digit).reverse = Nat.ofDigits 10 digits := by
  induction digits with
  | nil => rfl
  | cons number rest ih =>
    rw [List.forall_mem_cons] at bounds
    have previous := ih bounds.2
    unfold value at previous ⊢
    rw [List.map_cons,List.reverse_cons,List.foldl_append,previous,Nat.ofDigits_cons]
    change 10 * _ + ((digit number).toNat - 48) = _
    rw [toNat_digit number bounds.1]
    omega

theorem value_print (number : Nat) : value (print number) = number := by
  unfold print
  split
  · next zero => rw [zero]; rfl
  · rw [value_digits _ fun _ member => Nat.digits_lt_base (by decide) member,Nat.ofDigits_digits]

theorem print_length (number width : Nat) (positive : 0 < width) (bound : number < 10^width) :
    (print number).length ≤ width := by
  unfold print
  split
  · exact positive
  · rw [List.length_reverse,List.length_map]
    exact (Nat.digits_length_le_iff (by decide) number).mpr bound

theorem print_injective : Function.Injective print := by
  intro one two same
  rw [← value_print one,same,value_print]

end Decimal
