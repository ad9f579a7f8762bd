import ObjectGraph.Decimal

/-! Binary floating point numbers of 64 bits, known by their bits. -/
namespace ObjectGraph

structure Binary64 where
  bits : UInt64
  deriving DecidableEq, Repr

namespace Binary64

def zero : Binary64 := ⟨0⟩

def isNegative (x : Binary64) : Bool := x.bits.toNat / Nat.pow 2 63 == 1

def exponentField (x : Binary64) : Nat := x.bits.toNat / Nat.pow 2 52 % Nat.pow 2 11

def fractionField (x : Binary64) : Nat := x.bits.toNat % Nat.pow 2 52

def isFinite (x : Binary64) : Bool := x.exponentField != 2047

def isNaN (x : Binary64) : Bool := x.exponentField == 2047 && x.fractionField != 0

def isZero (x : Binary64) : Bool := x.exponentField == 0 && x.fractionField == 0

/-- Equality of numbers: no NaN equals anything, and the two zeros are equal. -/
def equal (x y : Binary64) : Bool :=
  !x.isNaN && !y.isNaN && (x == y || x.isZero && y.isZero)

/-- A finite number has the magnitude `significand · 2 ^ scale`. -/
def significand (x : Binary64) : Nat :=
  if x.exponentField = 0 then x.fractionField else Nat.pow 2 52 + x.fractionField

def scale (x : Binary64) : Int := max x.exponentField 1 - 1075

/-- The distance to the middle between `x` and the next smaller magnitude, in quarters of
the last place: below a power of two the numbers lie twice as dense. -/
def gapBelow (x : Binary64) : Nat :=
  if x.fractionField = 0 ∧ 1 < x.exponentField then 1 else 2

/-- The quotient `n / 2 ^ s` rounded to the nearest, a half to the even neighbour. -/
def roundShift (n s : Nat) : Nat :=
  let q := n / Nat.pow 2 s
  let r := n % Nat.pow 2 s
  if 2 * r > Nat.pow 2 s ∨ 2 * r = Nat.pow 2 s ∧ q % 2 = 1 then q + 1 else q

/-- The bits of the number nearest to `n`. A carry out of the significand moves into
the exponent, and what is too large becomes infinite. -/
def magnitudeBits (n : Nat) : Nat :=
  if n = 0 then 0
  else
    let top := n.log2
    let m := if top ≤ 52 then n * Nat.pow 2 (52 - top) else roundShift n (top - 52)
    min ((top + 1022) * Nat.pow 2 52 + m) (2047 * Nat.pow 2 52)

/-- The number nearest to `i`, a half going to the even neighbour. -/
def ofInt (i : Int) : Binary64 :=
  ⟨.ofNat (magnitudeBits i.natAbs + if i < 0 then Nat.pow 2 63 else 0)⟩

/-- The fewest digits that read back, never with an exponent; whole numbers have no point. -/
def text (x : Binary64) : String :=
  if x.isNaN then "NaN"
  else
    let magnitude :=
      if !x.isFinite then "inf"
      else if x.isZero then "0"
      else (Decimal.shortest x.significand x.scale x.gapBelow).positional
    if x.isNegative then "-" ++ magnitude else magnitude

end Binary64

end ObjectGraph
