/-!
How reading JSON fails, and the bytes it reads. The first problem met decides: the text may
end too early, it may not be JSON, or it may be JSON of another kind than what is wanted.
-/
namespace QueueAssignment.Json

abbrev Bytes := List UInt8

inductive Failure where
  | truncated
  | malformed
  | mismatched
  deriving DecidableEq, Repr

def Failure.name : Failure → String
  | truncated => "eof"
  | malformed => "syntax"
  | mismatched => "data"

abbrev Reader (α : Type) := StateT Bytes (Except Failure) α

def isBlank (b : UInt8) : Bool := b = 0x20 || b = 0x09 || b = 0x0a || b = 0x0d

def isDigit (b : UInt8) : Bool := 0x30 ≤ b && b ≤ 0x39

def digitValue (b : UInt8) : Nat := b.toNat - 0x30

def startsWithDigit : Bytes → Bool
  | b :: _ => isDigit b
  | [] => false

def ascii (text : String) : Bytes := text.toList.map Char.toUInt8

def literal : Bytes → Bytes → Except Failure (Unit × Bytes)
  | [], bytes => .ok ((), bytes)
  | _ :: _, [] => .error .truncated
  | wanted :: more, b :: rest => if b = wanted then literal more rest else .error .malformed

/-- The next byte that is no white space. It is not read. -/
def peek : Reader UInt8 := fun bytes =>
  match bytes.dropWhile isBlank with
  | [] => .error .truncated
  | b :: rest => .ok (b, b :: rest)

def advance : Reader Unit := fun bytes => .ok ((), bytes.drop 1)

def remaining : Reader Bytes := fun bytes => .ok (bytes, bytes)

end QueueAssignment.Json
