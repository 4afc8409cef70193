/-!
Natural numbers as settings write them: decimal digits, after one optional plus sign.
-/
namespace QueueAssignment.Text

def digitValue? (c : Char) : Option Nat :=
  if '0' ≤ c ∧ c ≤ '9' then some (c.toNat - '0'.toNat) else none

def digitsValue? (sofar : Nat) : List Char → Option Nat
  | [] => some sofar
  | c :: rest => (digitValue? c).bind fun digit => digitsValue? (10 * sofar + digit) rest

/-- A natural number below `limit`. Nothing may stand before, between or after the digits but the
    sign. -/
def readNatural? (limit : Nat) (text : List Char) : Option Nat :=
  let digits := match text with
    | '+' :: rest => rest
    | _ => text
  if digits.isEmpty then none
  else (digitsValue? 0 digits).filter fun n => n < limit

end QueueAssignment.Text
