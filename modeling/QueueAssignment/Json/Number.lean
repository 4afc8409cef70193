import QueueAssignment.Hash.Binary64
import QueueAssignment.Json.Failure

/-!
Numbers. An integer that fits a word is exact. Any other number is read as binary64, and all
that counts is whether that could hold it: the digits are taken up to 64 bits, the rest only
shifts the point, and the result is scaled by one power of ten.
-/
namespace QueueAssignment.Json

inductive Number where
  | natural (n : Nat)
  /-- Minus a positive number. -/
  | negative (n : Nat)
  /-- Not an integer in form, or none that fits. -/
  | inexact
  deriving DecidableEq, Repr

/-- Takes digits while the number stays below `2 ^ 64`. -/
def significand (sofar : Nat) : Bytes → Nat × Bytes
  | [] => (sofar, [])
  | b :: rest =>
      if isDigit b ∧ 10 * sofar + digitValue b < 0x10000000000000000 then
        significand (10 * sofar + digitValue b) rest
      else (sofar, b :: rest)

def exponentDigits (sofar : Nat) : Bytes → Nat × Bytes
  | [] => (sofar, [])
  | b :: rest =>
      if isDigit b ∧ 10 * sofar + digitValue b < 0x80000000 then
        exponentDigits (10 * sofar + digitValue b) rest
      else (sofar, b :: rest)

def powerOfTen (exponent : Nat) : Binary64.Ratio := Binary64.round ⟨Nat.pow 10 exponent, 1⟩

def isFinite (digits : Nat) (exponent : Int) : Bool :=
  if exponent < 0 ∨ digits = 0 then true
  else if 308 < exponent then false
  else !Binary64.overflows
    (Binary64.mul (Binary64.round ⟨digits, 1⟩) (powerOfTen exponent.toNat))

def inexact (digits : Nat) (exponent : Int) (rest : Bytes) : Except Failure (Number × Bytes) :=
  if isFinite digits exponent then .ok (.inexact, rest) else .error .malformed

def exponentPart (digits : Nat) (scale : Int) (bytes : Bytes) : Except Failure (Number × Bytes) :=
  let (negative, unsigned) := match bytes with
    | b :: rest =>
        if b = 0x2d then (true, rest) else if b = 0x2b then (false, rest) else (false, bytes)
    | [] => (false, bytes)
  match unsigned with
  | [] => .error .truncated
  | b :: _ =>
      if !isDigit b then .error .malformed
      else
        let (exponent, rest) := exponentDigits 0 unsigned
        if startsWithDigit rest then
          if digits ≠ 0 ∧ !negative then .error .malformed
          else .ok (.inexact, rest.dropWhile isDigit)
        else inexact digits (if negative then scale - exponent else scale + exponent) rest

def exponentOrEnd (digits : Nat) (scale : Int) (bytes : Bytes) : Except Failure (Number × Bytes) :=
  match bytes with
  | b :: rest =>
      if b = 0x65 ∨ b = 0x45 then exponentPart digits scale rest else inexact digits scale bytes
  | [] => inexact digits scale bytes

def decimalPart (digits : Nat) (scale : Int) (bytes : Bytes) : Except Failure (Number × Bytes) :=
  let (digits, rest) := significand digits bytes
  let taken := bytes.length - rest.length
  if startsWithDigit rest then exponentOrEnd digits (scale - taken) (rest.dropWhile isDigit)
  else if taken = 0 then .error (if rest.isEmpty then .truncated else .malformed)
  else exponentOrEnd digits (scale - taken) rest

/-- The number that an integer without fraction and exponent is. Minus zero is inexact. -/
def integer (negative : Bool) (n : Nat) : Number :=
  if !negative then .natural n
  else if n = 0 ∨ 0x8000000000000000 < n then .inexact
  else .negative n

def afterInteger (negative : Bool) (digits : Nat) (bytes : Bytes) :
    Except Failure (Number × Bytes) :=
  match bytes with
  | b :: rest =>
      if b = 0x2e then decimalPart digits 0 rest
      else if b = 0x65 ∨ b = 0x45 then exponentPart digits 0 rest
      else .ok (integer negative digits, bytes)
  | [] => .ok (integer negative digits, bytes)

def longInteger (digits : Nat) (bytes : Bytes) : Except Failure (Number × Bytes) :=
  let rest := bytes.dropWhile isDigit
  let scale : Int := bytes.length - rest.length
  match rest with
  | b :: more => if b = 0x2e then decimalPart digits scale more else exponentOrEnd digits scale rest
  | [] => exponentOrEnd digits scale rest

def number (negative : Bool) (bytes : Bytes) : Except Failure (Number × Bytes) :=
  match bytes with
  | [] => .error .truncated
  | b :: rest =>
      if b = 0x30 then
        if startsWithDigit rest then .error .malformed else afterInteger negative 0 rest
      else if isDigit b then
        let (digits, rest) := significand 0 bytes
        if startsWithDigit rest then longInteger digits rest else afterInteger negative digits rest
      else .error .malformed

def skipExponent (bytes : Bytes) : Except Failure (Unit × Bytes) :=
  let unsigned := match bytes with
    | b :: rest => if b = 0x2d ∨ b = 0x2b then rest else bytes
    | [] => bytes
  if startsWithDigit unsigned then .ok ((), unsigned.dropWhile isDigit) else .error .malformed

def skipDecimal (bytes : Bytes) : Except Failure (Unit × Bytes) :=
  if !startsWithDigit bytes then .error .malformed
  else match bytes.dropWhile isDigit with
    | b :: rest => if b = 0x65 ∨ b = 0x45 then skipExponent rest else .ok ((), b :: rest)
    | [] => .ok ((), [])

/-- What follows a number whose sign is read and whose value does not matter, however large. One
    that breaks off is not a number. -/
def skipNumber (bytes : Bytes) : Except Failure (Unit × Bytes) :=
  if !startsWithDigit bytes then .error .malformed
  else
    let rest := if bytes.head? = some 0x30 then bytes.drop 1 else bytes.dropWhile isDigit
    match rest with
    | b :: more =>
        if isDigit b then .error .malformed
        else if b = 0x2e then skipDecimal more
        else if b = 0x65 ∨ b = 0x45 then skipExponent more
        else .ok ((), rest)
    | [] => .ok ((), rest)

end QueueAssignment.Json
