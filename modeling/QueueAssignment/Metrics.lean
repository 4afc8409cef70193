/-!
The instruments of a coordinator. Counters only grow, gauges hold what was set last; where
no gauge was set it shows zero.
-/
namespace QueueAssignment

structure Metrics where
  /-- Scans that ran to their end. -/
  scans : Nat := 0
  /-- Topics whose route could not be read during a scan. -/
  topicFailures : Nat := 0
  /-- Gauge: the queues seen by the latest scan. -/
  discovered : Nat := 0
  /-- Queues left out or degraded because an offset was missing. -/
  offsetFailures : Nat := 0
  /-- Targets that were merged. -/
  reconciliations : Nat := 0
  /-- Queues moved from one worker to another. -/
  transfers : Nat := 0
  /-- Gauge: splits not yet delivered. -/
  pending : Nat := 0
  /-- Assign splits delivered. -/
  assigned : Nat := 0
  /-- Revoke splits delivered. -/
  revoked : Nat := 0
  /-- Assigns delivered while another worker was still recorded as the owner. -/
  earlyAssigns : Nat := 0
  /-- Gauge: queues that some worker holds. -/
  owned : Nat := 0
  /-- Gauge: registered workers. -/
  registered : Nat := 0
  deriving DecidableEq, Repr

namespace Metrics

def countRefusals (m : Metrics) (topics : Nat) : Metrics :=
  { m with topicFailures := m.topicFailures + topics }

def countScan (m : Metrics) (found : Nat) : Metrics :=
  { m with scans := m.scans + 1, discovered := found }

def countMissing (m : Metrics) (queues : Nat) : Metrics :=
  { m with offsetFailures := m.offsetFailures + queues }

def entries (m : Metrics) : List (String × Nat) :=
  [ ("split_coordinator_discovery_scans_total", m.scans),
    ("split_coordinator_discovery_topic_failures_total", m.topicFailures),
    ("split_coordinator_discovered_queues", m.discovered),
    ("split_coordinator_offset_resolution_failures_total", m.offsetFailures),
    ("split_coordinator_reconciliations_total", m.reconciliations),
    ("split_coordinator_ownership_transfers_total", m.transfers),
    ("split_coordinator_pending_splits", m.pending),
    ("split_coordinator_splits_assigned_total", m.assigned),
    ("split_coordinator_splits_revoked_total", m.revoked),
    ("split_coordinator_assigns_before_revoke_total", m.earlyAssigns),
    ("split_coordinator_owned_queues", m.owned),
    ("split_coordinator_registered_workers", m.registered) ]

end Metrics

end QueueAssignment
