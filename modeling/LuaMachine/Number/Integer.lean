/-!
Integers inside the numbers: which numbers are array positions, and the integer a number is cut
to. Cutting drops the fraction, keeps to the range of the target and sends NaN to zero.
-/

namespace LuaMachine.Number

/-- The array position a number names: it is integral, at least 1 and below 2^63. -/
def position? (n : Float) : Option Nat :=
  let i := n.toUInt64
  if 1 ≤ i && i < 9223372036854775808 && i.toFloat == n then some i.toNat else none

/-- The 64-bit signed integer a number is cut to. -/
def toInt64 (n : Float) : Int :=
  if n < 0 then -(min (-n).toUInt64.toNat 9223372036854775808 : Nat)
  else (min n.toUInt64.toNat 9223372036854775807 : Nat)

/-- The unsigned integer below `2^bits` a number is cut to. -/
def toUnsigned (bits : Nat) (n : Float) : Nat :=
  min n.toUInt64.toNat (1 <<< bits - 1)

/-- Whether the number is the negative zero. -/
def isNegativeZero (n : Float) : Bool := n == 0 && n.toBits != 0

end LuaMachine.Number
