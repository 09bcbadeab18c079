import LuaMachine.Machine

/-!
Metamethods: handlers that a metatable holds under the name of an event. Only tables have
metatables of their own; all strings share one.
-/

namespace LuaMachine

inductive Event
  | index | newIndex | eq | add | sub | mul | div | mod | pow | unm | len | lt | le | concat | call
  deriving DecidableEq, Repr

namespace Event

def name : Event → String
  | index => "__index" | newIndex => "__newindex" | eq => "__eq"
  | add => "__add" | sub => "__sub" | mul => "__mul" | div => "__div" | mod => "__mod"
  | pow => "__pow" | unm => "__unm" | len => "__len" | lt => "__lt" | le => "__le"
  | concat => "__concat" | call => "__call"

def all : List Event :=
  [index, newIndex, eq, add, sub, mul, div, mod, pow, unm, len, lt, le, concat, call]

def ofName? (s : String) : Option Event := all.find? fun e => e.name == s

def ofArith : ArithOp → Event
  | .add => add | .sub => sub | .mul => mul | .div => div | .mod => mod | .pow => pow

end Event

/-- The handler a metatable has for an event. -/
def Heap.handler? (h : Heap) (metatable : TableId) (e : Event) : Option Value :=
  let v := (h.table metatable).getString e.name
  if v.isNil then none else some v

namespace Machine

variable (m : Machine)

def metatable? : Value → Option TableId
  | .table t => (m.heap.table t).metatable
  | .str _ => m.stringMeta
  | _ => none

/-- The handler of an operand. -/
def handler? (v : Value) (e : Event) : Option Value :=
  (m.metatable? v).bind (m.heap.handler? · e)

/-- The handler of a binary operation: the left operand's, else the right one's. -/
def binaryHandler? (l r : Value) (e : Event) : Option Value :=
  (m.handler? l e).or (m.handler? r e)

end Machine

end LuaMachine
