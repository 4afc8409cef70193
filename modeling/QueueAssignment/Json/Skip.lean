import QueueAssignment.Json.Number
import QueueAssignment.Json.Text

/-!
Values that do not matter. They are checked to be JSON and left out, whatever their depth;
the lists and objects that are open are kept on a stack.
-/
namespace QueueAssignment.Json

inductive Nest where
  | list
  | object
  deriving DecidableEq, Repr

namespace Nest

def closing : Nest → UInt8
  | list => 0x5d
  | object => 0x7d

end Nest

/-- What may come next: a value, the first member of the innermost nest, the name of a member, or
    what follows a value. -/
inductive Expected where
  | value
  | first
  | name
  | next
  deriving DecidableEq, Repr

def Nest.member : Nest → Expected
  | list => .value
  | object => .name

def skipStart (open_ : List Nest) (b : UInt8) (rest : Bytes) :
    Except Failure (Expected × List Nest × Bytes) :=
  let plain (read : Except Failure (Unit × Bytes)) :
      Except Failure (Expected × List Nest × Bytes) :=
    match read with
    | .ok (_, rest) => .ok (.next, open_, rest)
    | .error failure => .error failure
  if b = 0x6e then plain (literal (ascii "ull") rest)
  else if b = 0x74 then plain (literal (ascii "rue") rest)
  else if b = 0x66 then plain (literal (ascii "alse") rest)
  else if b = 0x2d then plain (skipNumber rest)
  else if isDigit b then plain (skipNumber (b :: rest))
  else if b = quote then plain (skipText rest)
  else if b = 0x5b then .ok (.first, .list :: open_, rest)
  else if b = 0x7b then .ok (.first, .object :: open_, rest)
  else .error .malformed

def skipName (b : UInt8) (rest : Bytes) : Except Failure (Unit × Bytes) :=
  if b ≠ quote then .error .malformed
  else match skipText rest with
    | .error failure => .error failure
    | .ok (_, rest) =>
        match rest.dropWhile isBlank with
        | [] => .error .truncated
        | colon :: rest => if colon = 0x3a then .ok ((), rest) else .error .malformed

/-- Skips to the end of the outermost value that is open. Two steps never go by without a byte being
    read, so a budget of twice the length is enough. -/
def skipLoop : Nat → Expected → List Nest → Bytes → Except Failure (Unit × Bytes)
  | 0, _, _, _ => .error .truncated
  | _ + 1, .next, [], bytes => .ok ((), bytes)
  | budget + 1, expected, open_, bytes =>
      match bytes.dropWhile isBlank with
      | [] => .error .truncated
      | b :: rest =>
          match expected, open_ with
          | .value, open_ =>
              match skipStart open_ b rest with
              | .ok (expected, open_, rest) => skipLoop budget expected open_ rest
              | .error failure => .error failure
          | .first, nest :: outer =>
              if b = nest.closing then skipLoop budget .next outer rest
              else skipLoop budget nest.member (nest :: outer) (b :: rest)
          | .name, open_ =>
              match skipName b rest with
              | .ok (_, rest) => skipLoop budget .value open_ rest
              | .error failure => .error failure
          | .next, nest :: outer =>
              if b = 0x2c then skipLoop budget nest.member (nest :: outer) rest
              else if b = nest.closing then skipLoop budget .next outer rest
              else .error .malformed
          | _, [] => .error .malformed

def skipValue : Reader Unit := fun bytes => skipLoop (2 * bytes.length + 2) .value [] bytes

end QueueAssignment.Json
