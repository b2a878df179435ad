/-!
# Numeral — numbers written with a least number of digits

`decimal` and `hexadecimal` write a number and pad it on the left with zeros. A number that needs
more digits gets them.
-/

namespace RegexMachine

/-- A number in base ten. -/
def decimal (digits n : Nat) : List Char := (Nat.toDigits 10 n).leftpad digits '0'

/-- A number in base sixteen, in lower case and marked `0x`. -/
def hexadecimal (digits n : Nat) : List Char :=
  '0' :: 'x' :: (Nat.toDigits 16 n).leftpad digits '0'

end RegexMachine
