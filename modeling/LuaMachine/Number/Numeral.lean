import LuaMachine.Text.Blank

/-!
Numerals. A text is a numeral when, without the blanks around it, it is an optional sign followed
by `0x` or `0X` and hexadecimal digits, or by decimal digits with an optional point among them and
an optional exponent.
-/

namespace LuaMachine.Number

/-- The value of a digit in bases up to 36. -/
def digit? (c : Char) : Option Nat :=
  if '0' ≤ c && c ≤ '9' then some (c.toNat - 48)
  else if 'a' ≤ c && c ≤ 'z' then some (c.toNat - 87)
  else if 'A' ≤ c && c ≤ 'Z' then some (c.toNat - 55)
  else none

/-- The value of a digit of the given base. -/
def digitIn? (base : Nat) (c : Char) : Option Nat :=
  (digit? c).filter (· < base)

/-- The values of all characters, if every one is a digit of the base. -/
def digits? (base : Nat) : List Char → Option (List Nat)
  | [] => some []
  | c :: r =>
    match digitIn? base c, digits? base r with
    | some d, some ds => some (d :: ds)
    | _, _ => none

def ofDigits (base : Nat) (ds : List Nat) : Nat :=
  ds.foldl (fun v d => v * base + d) 0

/-- A sign and what follows it. -/
def splitSign : List Char → Bool × List Char
  | '-' :: r => (true, r)
  | '+' :: r => (false, r)
  | r => (false, r)

/-- The parts of an unsigned decimal numeral: the value is `digits * 10^exponent`. -/
structure Scientific where
  digits : Nat
  exponent : Int
  deriving DecidableEq

/-- Reads an exponent part, which may be missing. -/
def exponent? : List Char → Option Int
  | [] => some 0
  | c :: r =>
    if c == 'e' || c == 'E' then
      let (negative, ds) := splitSign r
      if ds.isEmpty then none
      else (digits? 10 ds).map fun ds =>
        if negative then -(ofDigits 10 ds : Int) else ofDigits 10 ds
    else none

/-- Reads an unsigned decimal numeral. -/
def scientific? (s : List Char) : Option Scientific :=
  let whole := s.takeWhile Char.isDigit
  let rest := s.dropWhile Char.isDigit
  let (fraction, rest) :=
    match rest with
    | '.' :: r => (r.takeWhile Char.isDigit, r.dropWhile Char.isDigit)
    | r => ([], r)
  if whole.isEmpty && fraction.isEmpty then none
  else
    match digits? 10 (whole ++ fraction), exponent? rest with
    | some ds, some e => some ⟨ofDigits 10 ds, e - fraction.length⟩
    | _, _ => none

/-- The nearest number. Beyond 400 decimal places on either side of the point it is infinite
or zero, whatever the digits are. -/
def Scientific.value (x : Scientific) : Float :=
  if x.digits = 0 then 0
  else
    let lead := x.exponent + ((toString x.digits).length : Int)
    if 400 < lead then Float.ofScientific 1 false 400
    else if lead < -400 then 0
    else Float.ofScientific x.digits (x.exponent < 0) x.exponent.natAbs

/-- The value of hexadecimal digits, rounding at every digit. -/
def hexValue (ds : List Nat) : Float :=
  ds.foldl (fun v d => v * 16 + Float.ofNat d) 0

/-- The magnitude of an unsigned numeral. -/
def unsigned? : List Char → Option Float
  | '0' :: 'x' :: r => if r.isEmpty then none else (digits? 16 r).map hexValue
  | '0' :: 'X' :: r => if r.isEmpty then none else (digits? 16 r).map hexValue
  | r => (scientific? r).map Scientific.value

/-- The number a text denotes, if it is a numeral. Decimal ones are first searched for characters
that do not belong in numerals, and then given to the parser of the standard library; `scientific?`
is what both of them let pass. -/
def ofString? (s : String) : Option Float :=
  let (negative, body) := splitSign (Text.trim Text.isSpace s.toList)
  (unsigned? body).map fun v => if negative then -v else v

/-- The 64-bit integer a text denotes in a base up to 36: an optional sign and digits, white space
around them. -/
def integerInBase? (base : Nat) (s : String) : Option Int :=
  let (negative, body) := splitSign (Text.trim Text.isWhite s.toList)
  if body.isEmpty then none
  else
    match digits? base body with
    | none => none
    | some ds =>
      let v := ofDigits base ds
      if negative then if v ≤ 9223372036854775808 then some (-(v : Int)) else none
      else if v ≤ 9223372036854775807 then some (v : Int) else none

end LuaMachine.Number
