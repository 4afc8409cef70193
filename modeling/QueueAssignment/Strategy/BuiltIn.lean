import QueueAssignment.Strategy.Balanced
import QueueAssignment.Strategy.Hashed
import QueueAssignment.Text.Blank

/-!
The strategies that a configuration can name.
-/
namespace QueueAssignment.Strategy

inductive BuiltIn where
  | hash
  | average
  deriving DecidableEq, Repr

namespace BuiltIn

def name : BuiltIn → String
  | hash => "hash"
  | average => "average"

def strategy : BuiltIn → Strategy
  | hash => hashed
  | average => balanced

/-- A name as it is compared: without blanks at its ends, ASCII letters in lower case. -/
def normalize (text : String) : String :=
  String.ofList ((Text.trim text.toList).map Char.toLower)

def ofName (text : String) : Except AllocationFailure BuiltIn :=
  let name := normalize text
  if name = hash.name then .ok hash
  else if name = average.name then .ok average
  else .error (.unknownStrategy name)

end BuiltIn

end QueueAssignment.Strategy
