/-! # Numbers in settings

A number is a run of decimal digits, with a plus sign in front if one likes,
that fits into 64 bits.
-/

namespace ReplicatedCache.Settings

inductive NumberError
  | empty
  | invalidDigit
  | tooLarge
deriving DecidableEq, Inhabited, Repr

def NumberError.message : NumberError → String
  | empty => "cannot parse integer from empty string"
  | invalidDigit => "invalid digit found in string"
  | tooLarge => "number too large to fit in target type"

/-- The first number that does not fit. -/
def numberBound : Nat := UInt64.size

/-- Reads the digits that follow those of a number. The first character that is
no digit, or with which the number becomes too large, decides. -/
def numberFrom (n : Nat) : List Char → Except NumberError Nat
  | [] => .ok n
  | c :: rest =>
    if c.isDigit then
      let n := 10 * n + (c.toNat - '0'.toNat)
      if n < numberBound then numberFrom n rest else .error .tooLarge
    else .error .invalidDigit

def number (text : String) : Except NumberError Nat :=
  match text.toList with
  | [] => .error .empty
  | ['+'] => .error .invalidDigit
  | '+' :: digits => numberFrom 0 digits
  | digits => numberFrom 0 digits

end ReplicatedCache.Settings
