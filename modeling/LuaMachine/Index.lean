import LuaMachine.Invoke
import LuaMachine.Metamethod

/-!
Indexing. A field that is there is taken as it is. Where it is not, and for values that are no
tables, the chain of `__index` or `__newindex` handlers is followed: a function is called, anything
else is indexed in turn.
-/

namespace LuaMachine

/-- How a chain of `__index` handlers ends. -/
inductive IndexEnd
  | value (v : Value)
  /-- A function is to be called with this receiver. -/
  | handler (f receiver : Value)
  | notIndexable (v : Value)
  | tooLong

/-- How a chain of `__newindex` handlers ends. -/
inductive AssignEnd
  /-- The field of this table is to be set. -/
  | store (t : TableId)
  | handler (f receiver : Value)
  | notIndexable (v : Value)
  | tooLong

namespace Machine

variable (m : Machine)

/-- Follows `__index` handlers for a number of steps. -/
def resolveIndex (key : Value) : Nat → Value → IndexEnd
  | 0, _ => .tooLong
  | steps + 1, v =>
    let follow (h : Value) : IndexEnd :=
      if h.isFunction then .handler h v else resolveIndex key steps h
    match v with
    | .table t =>
      let found := (m.heap.table t).get key
      if !found.isNil then .value found
      else
        match m.handler? v .index with
        | some h => follow h
        | none => .value .nil
    | v =>
      match m.handler? v .index with
      | some h => follow h
      | none => .notIndexable v

/-- Follows `__newindex` handlers for a number of steps. -/
def resolveAssign (key : Value) : Nat → Value → AssignEnd
  | 0, _ => .tooLong
  | steps + 1, v =>
    let follow (h : Value) : AssignEnd :=
      if h.isFunction then .handler h v else resolveAssign key steps h
    match v with
    | .table t =>
      if (m.heap.table t).metatable.isNone then .store t
      else if !((m.heap.table t).get key).isNil then .store t
      else
        match m.handler? v .newIndex with
        | some h => follow h
        | none => .store t
    | v =>
      match m.handler? v .newIndex with
      | some h => follow h
      | none => .notIndexable v

end Machine

section

variable (run : Run)

/-- The field of a value. -/
def index (v key : Value) : Action Value := do
  match ← view fun m => m.resolveIndex key Limit.metaSteps v with
  | .value found => pure found
  | .handler f receiver => callHandlerHolding run [v, receiver, key] f [receiver, key]
  | .notIndexable w => raise (.operand .index w.type)
  | .tooLong => raise .indexChain

/-- Sets the field of a value. -/
def assign (v key new : Value) : Action Unit := do
  match ← view fun m => m.resolveAssign key Limit.metaSteps v with
  | .store t => rawSet t key new
  | .handler f receiver =>
    let _ ← callHandlerHolding run [v, receiver, key, new] f [receiver, key, new]
  | .notIndexable w => raise (.operand .index w.type)
  | .tooLong => raise .assignChain

end

/-- The length of a value: a border of a table, the bytes of a string. -/
def length (v : Value) : Action Value := do
  match v with
  | .table t => view fun m => .ofNat (m.heap.table t).border
  | .str s => pure (.ofNat s.utf8ByteSize)
  | v => raise (.operand .length v.type)

end LuaMachine
