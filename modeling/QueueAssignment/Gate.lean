/-!
Gates hold calls back. A call at a gate goes through with a permit, and permits are kept
until they are used. Each new gate replaces the one before, and the calls that wait at the
old one wait for ever.
-/
namespace QueueAssignment

/-- Where a call stands: at the gate with this number, or nowhere, so that it may go on. -/
abbrev GateNumber := Option Nat

structure Gate where
  /-- The gate that is shut now, if one is. -/
  current : GateNumber := none
  /-- How many gates there were. -/
  count : Nat := 0
  permits : Nat := 0
  deriving DecidableEq, Repr

namespace Gate

def hold (gate : Gate) : Gate := ⟨some gate.count, gate.count + 1, 0⟩

def release (gate : Gate) (permits : Nat) : Gate :=
  if gate.current.isSome then { gate with permits := gate.permits + permits } else gate

def lift (gate : Gate) : Gate := { gate with current := none, permits := 0 }

def freed (gate : Gate) (place : GateNumber) : GateNumber :=
  if place = gate.current then none else place

/-- The gate after a call that stands at `place` went on, unless that call has to wait. -/
def pass? (gate : Gate) (place : GateNumber) : Option Gate :=
  if place = none then some gate
  else if place = gate.current then
    match gate.permits with
    | 0 => none
    | permits + 1 => some { gate with permits }
  else none

end Gate

end QueueAssignment
