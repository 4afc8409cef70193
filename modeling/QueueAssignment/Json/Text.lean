import QueueAssignment.Json.Failure

/-!
Strings. A string ends at the next quote that is not escaped; control characters must be
escaped, and escaped units above the basic plane come in pairs.
-/
namespace QueueAssignment.Json

def quote : UInt8 := 0x22

def backslash : UInt8 := 0x5c

def simpleEscape? (letter : UInt8) : Option UInt8 :=
  if letter = quote ∨ letter = backslash ∨ letter = 0x2f then some letter
  else if letter = 0x62 then some 0x08
  else if letter = 0x66 then some 0x0c
  else if letter = 0x6e then some 0x0a
  else if letter = 0x72 then some 0x0d
  else if letter = 0x74 then some 0x09
  else none

def unitLetter : UInt8 := 0x75

def hexValue? (b : UInt8) : Option Nat :=
  if isDigit b then some (digitValue b)
  else if 0x61 ≤ b ∧ b ≤ 0x66 then some (b.toNat - 0x61 + 10)
  else if 0x41 ≤ b ∧ b ≤ 0x46 then some (b.toNat - 0x41 + 10)
  else none

def unit? (a b c d : UInt8) : Option Nat :=
  match hexValue? a, hexValue? b, hexValue? c, hexValue? d with
  | some a, some b, some c, some d => some (((a * 16 + b) * 16 + c) * 16 + d)
  | _, _, _, _ => none

def isLeading (unit : Nat) : Bool := 0xd800 ≤ unit && unit ≤ 0xdbff

def isTrailing (unit : Nat) : Bool := 0xdc00 ≤ unit && unit ≤ 0xdfff

def trailingUnit : Bytes → Except Failure Nat
  | [] => .error .truncated
  | s :: rest =>
      if s ≠ backslash then .error .malformed
      else match rest with
        | [] => .error .truncated
        | u :: rest =>
            if u ≠ unitLetter then .error .malformed
            else match rest with
              | a :: b :: c :: d :: _ =>
                  match (unit? a b c d).filter isTrailing with
                  | some unit => .ok unit
                  | none => .error .malformed
              | _ => .error .truncated

def characterBytes (number : Nat) : Bytes := String.utf8EncodeChar (Char.ofNat number)

def pairNumber (leading trailing : Nat) : Nat :=
  0x10000 + (leading - 0xd800) * 0x400 + (trailing - 0xdc00)

def prepend (front : Bytes) : Except Failure (Bytes × Bytes) → Except Failure (Bytes × Bytes)
  | .ok (content, rest) => .ok (front ++ content, rest)
  | .error failure => .error failure

/-- The content of a string whose opening quote is read, with escapes resolved, and what follows its
    closing quote. -/
def textContent : Bytes → Except Failure (Bytes × Bytes)
  | [] => .error .truncated
  | b :: rest =>
      if b = quote then .ok ([], rest)
      else if b = backslash then
        match rest with
        | [] => .error .truncated
        | letter :: rest =>
            match simpleEscape? letter with
            | some plain => prepend [plain] (textContent rest)
            | none =>
                if letter ≠ unitLetter then .error .malformed
                else match rest with
                  | a :: b :: c :: d :: rest =>
                      match unit? a b c d with
                      | none => .error .malformed
                      | some unit =>
                          if isTrailing unit then .error .malformed
                          else if isLeading unit then
                            match trailingUnit rest with
                            | .error failure => .error failure
                            | .ok trailing =>
                                match rest with
                                | _ :: _ :: _ :: _ :: _ :: _ :: rest =>
                                    prepend (characterBytes (pairNumber unit trailing))
                                      (textContent rest)
                                | _ => .error .truncated
                          else prepend (characterBytes unit) (textContent rest)
                  | _ => .error .truncated
      else if b < 0x20 then .error .malformed
      else prepend [b] (textContent rest)

def text : Reader String := fun bytes =>
  match textContent bytes with
  | .error failure => .error failure
  | .ok (content, rest) =>
      match String.fromUTF8? ⟨content.toArray⟩ with
      | some content => .ok (content, rest)
      | none => .error .malformed

/-- What follows a string whose opening quote is read and whose content does not matter: escapes are
    checked one by one, pairs and UTF-8 are not. -/
def skipText : Bytes → Except Failure (Unit × Bytes)
  | [] => .error .truncated
  | b :: rest =>
      if b = quote then .ok ((), rest)
      else if b = backslash then
        match rest with
        | [] => .error .truncated
        | letter :: rest =>
            if (simpleEscape? letter).isSome then skipText rest
            else if letter ≠ unitLetter then .error .malformed
            else match rest with
              | a :: b :: c :: d :: rest =>
                  if (unit? a b c d).isSome then skipText rest else .error .malformed
              | _ => .error .truncated
      else if b < 0x20 then .error .malformed
      else skipText rest

end QueueAssignment.Json
