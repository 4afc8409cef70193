/-!
Writing JSON: compact, with the members of an object in the given order. Only quotes,
backslashes and control characters are escaped.
-/
namespace QueueAssignment.Json

def hexDigit (n : Nat) : Char := if n < 10 then Char.ofNat (48 + n) else Char.ofNat (87 + n)

def escape (c : Char) : List Char :=
  if c = '"' then ['\\', '"']
  else if c = '\\' then ['\\', '\\']
  else if c = '\x08' then ['\\', 'b']
  else if c = '\x0c' then ['\\', 'f']
  else if c = '\n' then ['\\', 'n']
  else if c = '\r' then ['\\', 'r']
  else if c = '\t' then ['\\', 't']
  else if c.toNat < 0x20 then
    ['\\', 'u', '0', '0', hexDigit (c.toNat / 16), hexDigit (c.toNat % 16)]
  else [c]

def writeText (text : String) : List Char := '"' :: (text.toList.flatMap escape ++ ['"'])

def writeNat (n : Nat) : List Char := Nat.toDigits 10 n

def writeInt : Int → List Char
  | .ofNat n => writeNat n
  | .negSucc n => '-' :: writeNat (n + 1)

def separated : List (List Char) → List Char
  | [] => []
  | [part] => part
  | part :: next :: rest => part ++ ',' :: separated (next :: rest)

def writeList (elements : List (List Char)) : List Char := '[' :: (separated elements ++ [']'])

def writeObject (members : List (String × List Char)) : List Char :=
  '{' :: (separated (members.map fun member => writeText member.1 ++ ':' :: member.2) ++ ['}'])

def writeNull : List Char := ['n', 'u', 'l', 'l']

end QueueAssignment.Json
