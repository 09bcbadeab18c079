import LuaMachine.Number.Integer

/-!
The text of a number: fourteen significant digits, a half going to the even neighbour, without
trailing zeros; positional when the decimal exponent lies in `-4 .. 13`, else with an exponent of
at least two digits. Integral numbers below `10^14` are written out.
-/

namespace LuaMachine.Number

/-- A positive finite magnitude `mantissa * 2^exponent`. -/
structure Magnitude where
  mantissa : Nat
  exponent : Int
  deriving DecidableEq

/-- The magnitude of a finite number, read off its bits. -/
def magnitude (n : Float) : Magnitude :=
  let bits := n.toBits.toNat
  let e := bits / 4503599627370496 % 2048
  let f := bits % 4503599627370496
  if e = 0 then ⟨f, -1074⟩ else ⟨f + 4503599627370496, (e : Int) - 1075⟩

/-- The magnitude as a fraction. -/
def Magnitude.fraction (x : Magnitude) : Nat × Nat :=
  if 0 ≤ x.exponent then (x.mantissa <<< x.exponent.toNat, 1)
  else (x.mantissa, 1 <<< (-x.exponent).toNat)

/-- The quotient to the nearest integer, a half going to the even one. -/
def roundDiv (num den : Nat) : Nat :=
  let q := num / den
  let r := num % den
  if 2 * r > den || (2 * r == den && q % 2 == 1) then q + 1 else q

/-- How often a fraction below one must be multiplied by ten to reach one, at most `fuel` times. -/
def scaleUp (den : Nat) : Nat → Nat → Nat
  | 0, _ => 0
  | fuel + 1, num => if den ≤ num then 0 else scaleUp den fuel (10 * num) + 1

/-- The exponent of the leading decimal digit of a positive fraction. -/
def leadingExponent (num den : Nat) : Int :=
  if den ≤ num then (toString (num / den)).length - 1 else -(scaleUp den 400 num : Int)

/-- The significant digits, as one integer, and the exponent of the first of them. -/
structure Rounded where
  digits : Nat
  exponent : Int
  deriving DecidableEq

/-- The fraction rounded to fourteen significant digits. -/
def round14 (num den : Nat) : Rounded :=
  let e := leadingExponent num den
  let shift := 13 - e
  let d :=
    if 0 ≤ shift then roundDiv (num * Nat.pow 10 shift.toNat) den
    else roundDiv num (den * Nat.pow 10 (-shift).toNat)
  if d = 100000000000000 then ⟨10000000000000, e + 1⟩ else ⟨d, e⟩

/-- A digit string without its trailing zeros. -/
def dropZeros (ds : List Char) : List Char :=
  (ds.reverse.dropWhile (· == '0')).reverse

/-- Whole part and fraction, the point left out with an empty fraction. -/
def joinPoint (whole fraction : List Char) : String :=
  if fraction.isEmpty then String.ofList whole else String.ofList (whole ++ '.' :: fraction)

def pad2 (n : Nat) : String := if n < 10 then "0" ++ toString n else toString n

def Rounded.text (r : Rounded) : String :=
  let ds := (toString r.digits).toList
  if r.exponent < -4 || 14 ≤ r.exponent then
    let sign := if r.exponent < 0 then "-" else "+"
    joinPoint (ds.take 1) (dropZeros (ds.drop 1)) ++ "e" ++ sign ++ pad2 r.exponent.natAbs
  else if r.exponent < 0 then
    joinPoint ['0'] (List.replicate (r.exponent.natAbs - 1) '0' ++ dropZeros ds)
  else
    let n := r.exponent.toNat + 1
    joinPoint (ds.take n) (dropZeros (ds.drop n))

/-- The text of a number. That of a NaN with its sign bit set, `-nan`, is left out: such values are
not told apart here. -/
def format (n : Float) : String :=
  if n.isNaN then "nan"
  else if n.isInf then if n > 0 then "inf" else "-inf"
  else
    let sign := if n < 0 || isNegativeZero n then "-" else ""
    let whole := n.abs.toUInt64
    if whole.toFloat == n.abs && whole < 100000000000000 then sign ++ toString whole.toNat
    else
      let (num, den) := (magnitude n).fraction
      sign ++ (round14 num den).text

end LuaMachine.Number
