import QueueAssignment.Hash.Binary64

/-!
Jump consistent hashing. A key walks along ever higher buckets; the last one below the
number of buckets is its own. The walk does not look at that number, so with more buckets a
key stays or moves on to a new bucket.
-/
namespace QueueAssignment.Jump

def scramble (key : UInt64) : UInt64 := key * 2862933555777941757 + 1

/-- The bucket after `bucket` on the walk of a scrambled key: `bucket + 1` stretched by `2 ^ 31`
    over one more than the key's upper bits, in binary64. -/
def next (key : UInt64) (bucket : Nat) : Nat :=
  let stretch := Binary64.div (1 <<< 31) ((key >>> 33).toNat + 1)
  Binary64.floor (Binary64.mul ⟨bucket + 1, 1⟩ stretch)

/-- The last bucket below `buckets` on the walk from `bucket`. Every step goes up, so a budget of
    `buckets` steps reaches it. -/
def walk (buckets : Nat) : Nat → UInt64 → Nat → Nat
  | 0, _, bucket => bucket
  | budget + 1, key, bucket =>
      let key := scramble key
      let onward := next key bucket
      if onward < buckets then walk buckets budget key onward else bucket

def bucket (key : UInt64) (buckets : Nat) : Nat := walk buckets buckets key 0

structure NoBuckets where
  deriving DecidableEq, Repr

def NoBuckets.message (_ : NoBuckets) : String := "num_buckets must be positive"

def bucket? (key : UInt64) (buckets : Nat) : Except NoBuckets Nat :=
  if buckets = 0 then .error {} else .ok (bucket key buckets)

end QueueAssignment.Jump
