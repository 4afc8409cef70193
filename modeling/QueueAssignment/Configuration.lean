import QueueAssignment.Settings
import QueueAssignment.Strategy.BuiltIn
import QueueAssignment.Text.Numeral

/-!
The configuration of a job as environment variables give it. A variable that is not set has
its default; of several values that cannot be read, the first in the order of the fields
below is reported.
-/
namespace QueueAssignment

abbrev Environment := String → Option String

structure UnreadableVariable where
  name : String
  deriving DecidableEq, Repr

def UnreadableVariable.message (failure : UnreadableVariable) : String :=
  "Failed to parse environment variable " ++ failure.name

structure Configuration where
  group : String
  /-- Topic names, separated by semicolons. -/
  topics : String
  /-- The scan interval in milliseconds. Zero stands for a single scan. -/
  interval : UInt64
  parallelism : UInt32
  bounded : Bool
  /-- The name of a built-in strategy. -/
  strategyName : String
  deriving DecidableEq, Repr

namespace Environment

def text (env : Environment) (name fallback : String) : String := (env name).getD fallback

def value {α : Type} (env : Environment) (name fallback : String) (read : String → Option α) :
    Except UnreadableVariable α :=
  match read (env.text name fallback) with
  | some value => .ok value
  | none => .error ⟨name⟩

end Environment

namespace Configuration

def readInterval (text : String) : Option UInt64 :=
  (Text.readNatural? UInt64.size text.toList).map UInt64.ofNat

def readParallelism (text : String) : Option UInt32 :=
  (Text.readNatural? UInt32.size text.toList).map UInt32.ofNat

def readFlag (text : String) : Option Bool :=
  if text = "true" then some true
  else if text = "false" then some false
  else none

def ofEnvironment (env : Environment) : Except UnreadableVariable Configuration := do
  let interval ← env.value "PARTITION_DISCOVERY_INTERVAL_MS" "30000" readInterval
  let parallelism ← env.value "PARALLELISM" "1" readParallelism
  let bounded ← env.value "BOUNDED" "false" readFlag
  pure
    { group := env.text "CONSUMER_GROUP" "split-coordinator"
      topics := env.text "TOPICS" ""
      interval
      parallelism
      bounded
      strategyName := env.text "ALLOCATE_STRATEGY" "hash" }

def settings (config : Configuration) : Settings where
  group := config.group
  parallelism := config.parallelism
  interval := if config.interval = 0 then none else some config.interval
  boundedness := if config.bounded then .bounded else .continuousUnbounded

def topicNames (config : Configuration) : List String :=
  (((Text.split ';' config.topics.toList).map Text.trim).filter fun name => !name.isEmpty).map
    String.ofList

def strategy (config : Configuration) : Except AllocationFailure Strategy.BuiltIn :=
  Strategy.BuiltIn.ofName config.strategyName

end Configuration

end QueueAssignment
