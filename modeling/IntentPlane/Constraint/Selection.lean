import IntentPlane.Constraint.Basic

/-!
# Selecting constraints

Of all candidates one constraint is kept per category: the bandwidth and the latency of the rank
asked for, and one each of encryption, high availability and availability. The rest is dropped.
-/

namespace IntentPlane.Constraint

/-- Ranks by category: zero is the highest bandwidth and the lowest latency. The security level
ranks nothing, since constraints of that category are all alike. -/
structure Levels where
  bandwidth : Nat
  delay : Nat
  security : Nat

/-- The bandwidth of a constraint, if it has a rank; NaN has none. -/
def bandwidth? : Constraint → Option Float
  | bandwidth bps => if Double.isNaN bps then none else some bps
  | _ => none

def latency? : Constraint → Option Latency
  | latency bound => some bound
  | _ => none

/-- Bandwidths from the highest down. -/
def rankedBandwidths (all : List Constraint) : List Float :=
  (all.filterMap bandwidth?).mergeSort fun x y => Double.rank y ≤ Double.rank x

/-- Latencies from the lowest up. -/
def rankedLatencies (all : List Constraint) : List Latency :=
  (all.filterMap latency?).mergeSort fun x y => x.toNanos ≤ y.toNanos

/-- The constraints kept of all candidates, category by category. -/
def selectFrom (all : List Constraint) (levels : Levels) : List Constraint :=
  ((rankedBandwidths all)[levels.bandwidth]?.map bandwidth).toList ++
    ((rankedLatencies all)[levels.delay]?.map latency).toList ++
    [encryption, highAvailability, availability].filter fun c => all.any fun d => decide (d = c)

/-- Selects from the constraints of the source, the destination and the request. -/
def select (source destination request : List Constraint) (levels : Levels) : List Constraint :=
  selectFrom (source ++ destination ++ request) levels

end IntentPlane.Constraint
