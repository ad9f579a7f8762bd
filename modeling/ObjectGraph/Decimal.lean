/-! Decimals, the shortest of those that read back as a given binary number, and
their positional text. All arithmetic is exact. -/
namespace ObjectGraph

/-- The number `digits · 10 ^ exponent`. -/
structure Decimal where
  digits : Nat
  exponent : Int
  deriving DecidableEq, Repr

namespace Decimal

/-- The decimal that equals `m · 2 ^ e`. -/
def exact (m : Nat) (e : Int) : Decimal :=
  if 0 ≤ e then ⟨m * Nat.pow 2 e.toNat, 0⟩ else ⟨m * Nat.pow 5 (-e).toNat, e⟩

/-- The multiple of `10 ^ p` nearest to `m · 2 ^ e`, a half going up, among those that
round to `m · 2 ^ e`. These lie between `gap` quarters of `2 ^ e` below it and two
quarters above, the ends included when `m` is even. -/
def onGrid? (m : Nat) (e : Int) (gap : Nat) (p : Int) : Option Nat :=
  let num := Nat.pow 2 (e - 2).toNat * Nat.pow 10 (-p).toNat
  let den := Nat.pow 2 (2 - e).toNat * Nat.pow 10 p.toNat
  let low := (4 * m - gap) * num
  let mid := 4 * m * num
  let high := (4 * m + 2) * num
  let inside (d : Nat) : Bool :=
    if m % 2 = 0 then low ≤ d * den ∧ d * den ≤ high else low < d * den ∧ d * den < high
  let d := mid / den
  if inside d then
    if inside (d + 1) ∧ (d + 1) * den - mid ≤ mid - d * den then some (d + 1) else some d
  else if inside (d + 1) then some (d + 1) else none

/-- The decimal of fewest digits that rounds to `m · 2 ^ e`, on the coarsest grid that
has one. Seventeen digits are always enough for a significand of 53 bits. -/
def shortest (m : Nat) (e : Int) (gap : Nat) : Decimal :=
  let top := (m.log2 + e + 2) * 30103 / 100000 + 1
  let found := (List.range 20).findSome? fun (n : Nat) =>
    (onGrid? m e gap (top - n)).map (⟨·, top - n⟩)
  found.getD (exact m e)

/-- Digits around a point, with no exponent, and with no point when no digit follows it. -/
def positional (d : Decimal) : String :=
  let ds := Nat.toDigits 10 d.digits
  if 0 ≤ d.exponent then String.ofList (ds ++ List.replicate d.exponent.toNat '0')
  else
    let places := (-d.exponent).toNat
    let ds := List.replicate (places + 1 - ds.length) '0' ++ ds
    String.ofList (ds.take (ds.length - places) ++ '.' :: ds.drop (ds.length - places))

end Decimal

end ObjectGraph
