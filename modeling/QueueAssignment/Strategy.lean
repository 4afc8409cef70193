import QueueAssignment.Assignment
import QueueAssignment.Error

/-!
A strategy computes the target: which worker should have which queue. It is asked again for
the complete set of queues on every change of the topology and may answer differently from
call to call, so the number of the call is one of its arguments.
-/
namespace QueueAssignment

/-- The outcome of the call with this number, for these queues and this parallelism. -/
abbrev Strategy := Nat → QueueSet → UInt32 → Except Error Assignment

namespace Strategy

def Deterministic (strategy : Strategy) : Prop := ∀ m n, strategy m = strategy n

/-- Gives the listed outcomes one after the other; the last one repeats. -/
def scripted : List (Except Error Assignment) → Strategy
  | [], _, _, _ => .error (.allocation (.reported "no outcome is left"))
  | [last], _, _, _ => last
  | first :: _ :: _, 0, _, _ => first
  | _ :: second :: rest, call + 1, queues, parallelism =>
      scripted (second :: rest) call queues parallelism

end Strategy

end QueueAssignment
