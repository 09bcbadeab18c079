import LuaMachine.Invoke
import LuaMachine.Metamethod

/-!
Arithmetic. Operands that are numbers or numerals are computed with; for others the metamethod of
the left operand is called, or of the right one.
-/

namespace LuaMachine

/-- Arithmetic on numbers. The remainder has the sign of the divisor. -/
def ArithOp.apply : ArithOp → Float → Float → Float
  | add, x, y => x + y
  | sub, x, y => x - y
  | mul, x, y => x * y
  | div, x, y => x / y
  | mod, x, y => x - (x / y).floor * y
  | pow, x, y => x.pow y

section

variable (run : Run)

def arith (op : ArithOp) (l r : Value) : Action Value := do
  match l.toNumber?, r.toNumber? with
  | some x, some y => pure (.number (op.apply x y))
  | x, _ =>
    match ← view fun m => m.binaryHandler? l r (.ofArith op) with
    | some h => callHandler run h [l, r]
    | none => raise (.operand .arithmetic (if x.isNone then l else r).type)

def negate (v : Value) : Action Value := do
  match v.toNumber? with
  | some n => pure (.number (-n))
  | none =>
    match ← view fun m => m.handler? v .unm with
    | some h => callHandler run h [v, v]
    | none => raise (.operand .arithmetic v.type)

end

end LuaMachine
