import LuaMachine.Invoke
import LuaMachine.Metamethod

/-!
Comparison. Numbers and strings are compared as such, strings by their bytes; other values of one
type through metamethods. `a <= b` may fall back on `not (b < a)`.
-/

namespace LuaMachine

section

variable (run : Run)

/-- Calls a handler for a truth value. -/
def callPredicate (h l r : Value) : Action Bool := do
  let v ← callHandler run h [l, r]
  pure v.isTruthy

def equals (l r : Value) : Action Bool := do
  match l, r with
  | .table x, .table y =>
    if x = y then pure true
    else
      match ← view fun m => m.binaryHandler? l r .eq with
      | some h => callPredicate run h l r
      | none => pure false
  | l, r => pure (l.rawEquals r)

def lessThan (l r : Value) : Action Bool := do
  match l, r with
  | .number x, .number y => pure (x < y)
  | .str x, .str y => pure (x < y)
  | l, r =>
    if l.type ≠ r.type then raise (.comparison l.type r.type)
    else
      match ← view fun m => m.binaryHandler? l r .lt with
      | some h => callPredicate run h l r
      | none => raise (.comparison l.type r.type)

def lessEqual (l r : Value) : Action Bool := do
  match l, r with
  | .number x, .number y => pure (x ≤ y)
  | .str x, .str y => pure (!decide (y < x))
  | l, r =>
    if l.type ≠ r.type then raise (.comparison l.type r.type)
    else
      match ← view fun m => m.binaryHandler? l r .le with
      | some h => callPredicate run h l r
      | none =>
        match ← view fun m => m.binaryHandler? r l .lt with
        | some h => Bool.not <$> callPredicate run h r l
        | none => raise (.comparison l.type r.type)

end

end LuaMachine
