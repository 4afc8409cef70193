/-!
Binary64 arithmetic on numbers of at least one, carried out exactly. A number is a quotient
of naturals. Rounding keeps the 53 leading bits and goes to the nearest such number, of two
equally near ones to the one with an even mantissa. The exponent is not bounded: a result
that binary64 cannot hold is seen by `overflows`.
-/
namespace QueueAssignment.Binary64

structure Ratio where
  num : Nat
  den : Nat
  deriving DecidableEq, Repr

/-- The natural nearest to `num / den`, a half going to the even neighbour. -/
def nearest (num den : Nat) : Nat :=
  let whole := num / den
  let rest := num % den
  if 2 * rest < den then whole
  else if den < 2 * rest then whole + 1
  else whole + whole % 2

def round (x : Ratio) : Ratio :=
  let exponent := (x.num / x.den).log2
  if exponent ≤ 52 then
    ⟨nearest (x.num <<< (52 - exponent)) x.den, 1 <<< (52 - exponent)⟩
  else
    ⟨nearest x.num (x.den <<< (exponent - 52)) <<< (exponent - 52), 1⟩

def mul (x y : Ratio) : Ratio := round ⟨x.num * y.num, x.den * y.den⟩

/-- The quotient of two naturals below `2 ^ 53`, of which the divisor is not the larger one. -/
def div (num den : Nat) : Ratio := round ⟨num, den⟩

def floor (x : Ratio) : Nat := x.num / x.den

def overflows (x : Ratio) : Bool := (1 <<< 1024) * x.den ≤ x.num

end QueueAssignment.Binary64
