/-! Decimal numbers rounded to binary numbers of 64 bits, ties to even. -/
namespace GraphQL

/-- A binary floating point number: a sign bit, eleven bits of exponent, 52 bits of fraction. -/
structure Binary64 where
  bits : UInt64
  deriving DecidableEq

namespace Binary64

def infinityBits : Nat := 0x7ff0000000000000

/-- A quiet number that is none. -/
def nanBits : Nat := 0x7ff8000000000000

def ofParts (negative : Bool) (magnitude : Nat) : Binary64 :=
  ⟨UInt64.ofNat (magnitude + if negative then 0x8000000000000000 else 0)⟩

/-- The quotient to the nearest integer, a tie to the even one. -/
def roundDiv (num den : Nat) : Nat :=
  let q := num / den
  let twice := 2 * (num % den)
  if twice < den || (twice = den && q % 2 = 0) then q else q + 1

/-- The two numbers scaled so that their quotient is that of `num` by `den` times `2 ^ e`. -/
def scale (e : Int) (num den : Nat) : Nat × Nat :=
  if 0 ≤ e then (num, den <<< e.toNat) else (num <<< (-e).toNat, den)

/-- The exponent of the greatest power of two that is not above the quotient of positive numbers. -/
def floorLog2 (num den : Nat) : Int :=
  let e : Int := (num.log2 : Int) - den.log2
  let (num, den) := scale e num den
  if den ≤ num then e else e - 1

/-- The bits of a positive quotient. The last place of a number is worth `2 ^ place`, and counting up
the bits counts up the numbers, so a carry into the exponent needs no care. -/
def magnitude (num den : Nat) : Nat :=
  let place := max (floorLog2 num den - 52) (-1074)
  let (num, den) := scale place num den
  min ((place + 1074).toNat <<< 52 + roundDiv num den) infinityBits

/-- The number `m * 10 ^ e`. Those far outside the range of exponents are decided by their number of
digits alone. -/
def magnitudeOfDecimal (m : Nat) (e : Int) : Nat :=
  if m = 0 then 0
  else
    let top : Int := e + (Nat.toDigits 10 m).length
    if 400 < top then infinityBits
    else if top < -400 then 0
    else if 0 ≤ e then magnitude (m * Nat.pow 10 e.toNat) 1
    else magnitude m (Nat.pow 10 (-e).toNat)

end Binary64
end GraphQL
