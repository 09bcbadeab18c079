import LuaMachine.Invoke

/-!
What a host function can do in its frame: read its arguments, push results, complain.
-/

namespace LuaMachine

/-- The number of arguments. -/
def argCount : Action Nat := view fun m => (m.topFrame?.map (·.argCount)).getD 0

/-- An argument, counted from 1; `nil` if there are fewer. -/
def arg (i : Nat) : Action Value := do
  match ← view (·.topFrame?) with
  | some f => if 1 ≤ i ∧ i ≤ f.argCount then readSlot (f.base + i - 1) else pure .nil
  | none => pure .nil

/-- All arguments. -/
def args : Action (List Value) := do
  match ← view (·.topFrame?) with
  | some f => readSlots f.base f.argCount
  | none => pure []

/-- Pushes a result. -/
def pushValue (v : Value) : Action Unit := do
  let top ← view (·.running.top)
  ensureStack (top + 1 + Limit.minStack)
  writeSlot top v
  setTop (top + 1)

def pushAll : List Value → Action Unit
  | [] => pure ()
  | v :: vs => do
    pushValue v
    pushAll vs

/-- Pushes results and gives their number. -/
def pushValues (vs : List Value) : Action Nat := do
  pushAll vs
  pure vs.length

/-- Pushes the only result. -/
def giveValue (v : Value) : Action Nat := pushValues [v]

/-- A value the running host closure has captured, counted from 0. -/
def capturedValue (i : Nat) : Action Value := view fun m =>
  match m.topFrame? with
  | none => .nil
  | some f =>
    match f.function with
    | .hostClosure c => ((m.heap.hostClosure c).captured[i]?).getD .nil
    | _ => .nil

def argumentError {α : Type} (i : Nat) (function : String) (problem : ArgumentProblem) : Action α :=
  raise (.argument i function problem)

/-- An argument that has to be there. -/
def requireArg (i : Nat) (function : String) : Action Value := do
  let n ← argCount
  if n < i then argumentError i function .valueExpected
  arg i

/-- The type of an argument in messages. -/
def argTypeName (i : Nat) : Action String := do
  let n ← argCount
  if n < i then pure "no value" else Value.typeName <$> arg i

def requireTable (i : Nat) (function : String) : Action TableId := do
  match ← arg i with
  | .table t => pure t
  | _ => argumentError i function (.expected "table" (← argTypeName i))

/-- A numeric argument; a numeral will do. -/
def requireNumber (i : Nat) (function : String) : Action Float := do
  match (← arg i).toNumber? with
  | some n => pure n
  | none => argumentError i function (.expected "number" (← argTypeName i))

/-- A numeric argument that may be left out. -/
def optionalNumber (i : Nat) (function : String) (default : Float) : Action Float := do
  if (← arg i).isNil then pure default else requireNumber i function

end LuaMachine
