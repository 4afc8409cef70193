import QueueAssignment.Json.Skip

/-!
Typed values. A value of another kind than the wanted one is read as far as its kind shows
and then refused. Records are objects with named members, or lists with one element for each
member.
-/
namespace QueueAssignment.Json

/-- Refuses the value that comes next, which must at least begin as JSON. -/
def refuse {α : Type} : Reader α := do
  let b ← peek
  if b = 0x6e then advance; literal (ascii "ull")
  else if b = 0x74 then advance; literal (ascii "rue")
  else if b = 0x66 then advance; literal (ascii "alse")
  else if b = 0x2d then advance; let _ ← number true
  else if isDigit b then let _ ← number false
  else if b = quote then advance; let _ ← text
  else if b ≠ 0x5b ∧ b ≠ 0x7b then throw .malformed
  throw .mismatched

def anyNumber : Reader Number := do
  let b ← peek
  if b = 0x2d then advance; number true
  else if isDigit b then number false
  else refuse

def natural (limit : Nat) : Reader Nat := do
  match ← anyNumber with
  | .natural n => if n < limit then pure n else throw .mismatched
  | _ => throw .mismatched

def word32 : Reader UInt32 := do
  let n ← natural 0x100000000
  pure (UInt32.ofNat n)

def int64 : Reader Int64 := do
  match ← anyNumber with
  | .natural n => if n < 0x8000000000000000 then pure (Int64.ofNat n) else throw .mismatched
  | .negative n => pure (Int64.ofInt (-n))
  | .inexact => throw .mismatched

def optional {α : Type} (value : Reader α) : Reader (Option α) := do
  let bytes ← remaining
  if (bytes.dropWhile isBlank).head? = some 0x6e then
    let _ ← peek
    advance
    literal (ascii "ull")
    pure none
  else
    let found ← value
    pure (some found)

def string : Reader String := do
  let b ← peek
  if b = quote then advance; text else refuse

def colon : Reader Unit := do
  let b ← peek
  if b = 0x3a then advance else throw .malformed

def moreElements (first : Bool) : Reader Bool := do
  let b ← peek
  if b = 0x5d then pure false
  else if first then pure true
  else if b = 0x2c then
    advance
    let b ← peek
    if b = 0x5d then throw .malformed else pure true
  else throw .malformed

/-- Reads the opening quote of a name. Where a name must come, no other value is JSON, so this never
    gives a mismatch. -/
def openName : Reader Unit := do
  let b ← peek
  if b = quote then advance else throw .malformed

def moreMembers (first : Bool) : Reader Bool := do
  let b ← peek
  if b = 0x7d then pure false
  else if first then
    openName
    pure true
  else if b = 0x2c then
    advance
    openName
    pure true
  else throw .malformed

def closeList : Reader Unit := do
  let b ← peek
  if b = 0x5d then advance else throw .malformed

def closeObject : Reader Unit := do
  let b ← peek
  if b = 0x7d then advance else throw .malformed

def foldElements {σ : Type} (step : σ → Reader σ) : Nat → Bool → σ → Reader σ
  | 0, _, _ => throw .truncated
  | budget + 1, first, state => do
      if ← moreElements first then
        let state ← step state
        foldElements step budget false state
      else pure state

/-- Folds the members of an object. `step` starts inside a name. -/
def foldMembers {σ : Type} (step : σ → Reader σ) : Nat → Bool → σ → Reader σ
  | 0, _, _ => throw .truncated
  | budget + 1, first, state => do
      if ← moreMembers first then
        let state ← step state
        foldMembers step budget false state
      else pure state

def list {α : Type} (element : Reader α) : Reader (List α) := do
  let b ← peek
  if b = 0x5b then
    advance
    let bytes ← remaining
    let elements ← foldElements (fun sofar => do let x ← element; pure (x :: sofar))
      (bytes.length + 1) true []
    closeList
    pure elements.reverse
  else refuse

def entries {α β : Type} (name : Reader α) (value : Reader β) : Reader (List (α × β)) := do
  let b ← peek
  if b = 0x7b then
    advance
    let bytes ← remaining
    let members ← foldMembers
      (fun sofar => do
        let k ← name
        colon
        let v ← value
        pure ((k, v) :: sofar))
      (bytes.length + 1) true []
    closeObject
    pure members.reverse
  else refuse

structure Member (σ : Type) where
  name : String
  isGiven : σ → Bool
  read : σ → Reader σ
  /-- A list may end before this member. -/
  trailing : Bool := false

/-- How a record is read: its members in order, the draft before the first one, and the record of a
    draft if nothing is missing. -/
structure Shape (σ α : Type) where
  members : List (Member σ)
  blank : σ
  finish? : σ → Option α

namespace Shape

variable {σ α : Type}

/-- Reads one member of an object into the draft. Unknown ones are skipped, and none may come
    twice. -/
def readMember (shape : Shape σ α) (draft : σ) : Reader σ := do
  let name ← text
  match shape.members.find? fun member => member.name = name with
  | some member =>
      if member.isGiven draft then throw .mismatched
      colon
      member.read draft
  | none =>
      colon
      skipValue
      pure draft

def readElements : Bool → List (Member σ) → σ → Reader σ
  | _, [], draft => pure draft
  | first, member :: rest, draft => do
      if ← moreElements first then
        let draft ← member.read draft
        readElements false rest draft
      else if member.trailing then readElements first rest draft
      else throw .mismatched

def finish (shape : Shape σ α) (draft : σ) : Reader α :=
  match shape.finish? draft with
  | some record => pure record
  | none => throw .mismatched

def read (shape : Shape σ α) : Reader α := do
  let b ← peek
  if b = 0x7b then
    advance
    let bytes ← remaining
    let draft ← foldMembers shape.readMember (bytes.length + 1) true shape.blank
    let record ← shape.finish draft
    closeObject
    pure record
  else if b = 0x5b then
    advance
    let draft ← readElements true shape.members shape.blank
    let record ← shape.finish draft
    closeList
    pure record
  else refuse

end Shape

def readAll {α : Type} (value : Reader α) (bytes : Bytes) : Except Failure α :=
  match value bytes with
  | .error failure => .error failure
  | .ok (result, rest) => if (rest.dropWhile isBlank).isEmpty then .ok result else .error .malformed

end QueueAssignment.Json
