/-!
SipHash with one round per block and three at the end, under two key words. The message is
read in blocks of eight bytes, least significant byte first; the last block carries the
length.
-/
namespace QueueAssignment.Sip

structure State where
  v0 : UInt64
  v1 : UInt64
  v2 : UInt64
  v3 : UInt64
  deriving DecidableEq, Repr

def rotate (x : UInt64) (bits : UInt64) : UInt64 := (x <<< bits) ||| (x >>> (64 - bits))

def round (s : State) : State :=
  let a := s.v0 + s.v1
  let b := rotate s.v1 13 ^^^ a
  let c := s.v2 + s.v3
  let d := rotate s.v3 16 ^^^ c
  let a' := rotate a 32 + d
  let d' := rotate d 21 ^^^ a'
  let c' := c + b
  let b' := rotate b 17 ^^^ c'
  ⟨a', b', rotate c' 32, d'⟩

def start (k0 k1 : UInt64) : State :=
  ⟨k0 ^^^ 0x736f6d6570736575, k1 ^^^ 0x646f72616e646f6d,
    k0 ^^^ 0x6c7967656e657261, k1 ^^^ 0x7465646279746573⟩

def absorb (s : State) (block : UInt64) : State :=
  let mixed := round { s with v3 := s.v3 ^^^ block }
  { mixed with v0 := mixed.v0 ^^^ block }

/-- The word of at most eight bytes, the first one least significant. -/
def word : List UInt8 → UInt64
  | [] => 0
  | byte :: rest => byte.toUInt64 ||| (word rest <<< 8)

def absorbAll (s : State) : List UInt8 → State × List UInt8
  | a :: b :: c :: d :: e :: f :: g :: h :: rest =>
      absorbAll (absorb s (word [a, b, c, d, e, f, g, h])) rest
  | rest => (s, rest)

def finish (s : State) : UInt64 :=
  let mixed := round (round (round { s with v2 := s.v2 ^^^ 0xff }))
  mixed.v0 ^^^ mixed.v1 ^^^ mixed.v2 ^^^ mixed.v3

def hash (k0 k1 : UInt64) (message : List UInt8) : UInt64 :=
  let absorbed := absorbAll (start k0 k1) message
  let length : UInt64 := UInt64.ofNat message.length <<< 56
  finish (absorb absorbed.1 (length ||| word absorbed.2))

end QueueAssignment.Sip
