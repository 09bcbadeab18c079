import LuaMachine.Machine

/-!
Calling from native code. Metamethods, iterators and host functions run code through a `Run`, which
is handed to them; every such call counts as nested, and nothing may yield across it.
-/

namespace LuaMachine

/-- The closure a frame runs and where its registers start. -/
structure Window where
  closure : Closure
  base : Nat

inductive Engine
  | interpreter
  | threaded (unit : CompiledUnit)
  | native (unit : CompiledUnit) (code : NativeCode)

/-- A frame being run: it goes on at `pc`. -/
structure Activation where
  window : Window
  engine : Engine
  pc : Nat

/-- What the machine can be asked to run. -/
inductive Job
  /-- Call the value in a slot with the arguments above it, and run it to its end. -/
  | call (slot argCount : Nat) (wanted : Option Nat)
  /-- Run frames until no more than `depth` of them are left. -/
  | execute (depth : Nat)
  /-- Run the frame on top until another one is there, and then as `execute`. -/
  | proceed (depth : Nat) (a : Activation)

abbrev Run := Job → Action Unit

/-- A host function: it finds its arguments in its frame, pushes its results and says how many of
the values on the stack they are. -/
abbrev HostBody := Run → Action Nat

/-- The host functions an embedding program provides, by name. -/
abbrev Embedding := String → HostBody

/-- Enters a call during which native code holds some more values. -/
def enterNative (held : List Value) : Action Unit :=
  modify fun m =>
    { m with nativeCalls := m.nativeCalls + 1, held := held ++ m.held }.modifyRunning fun s =>
      { s with boundaries := s.boundaries + 1 }

/-- Leaves a call before which the given values were held. -/
def leaveNative (held : List Value) : Action Unit :=
  modify fun m =>
    { m with nativeCalls := m.nativeCalls - 1, held := held }.modifyRunning fun s =>
      { s with boundaries := s.boundaries - 1 }

section

variable (run : Run)

/-- Calls the value in a slot from native code, which holds some values for the time of the call. -/
def callAt (slot argCount : Nat) (wanted : Option Nat) (held : List Value := []) : Action Unit := do
  if ← view fun m => decide (m.options.maxNativeCalls ≤ m.nativeCalls) then
    throw (.stackOverflow (← view (·.position)) true)
  let before ← view (·.held)
  enterNative held
  let outcome ← attempt (run (.call slot argCount wanted))
  leaveNative before
  match outcome with
  | .ok _ => pure ()
  | .error e => throw e

/-- Puts a function and its arguments above everything in use and gives the function's slot. -/
def placeCall (f : Value) (args : List Value) : Action Nat := do
  let slot ← view (·.callBase)
  ensureStack (slot + args.length + 1 + Limit.extraStack)
  writeSlot slot f
  writeSlots (slot + 1) args
  setTop (slot + 1 + args.length)
  pure slot

/-- Calls a metamethod for its first result, and holds some values meanwhile. -/
def callHandlerHolding (held : List Value) (f : Value) (args : List Value) : Action Value := do
  let slot ← placeCall f args
  callAt run slot args.length (some 1) held
  let v ← takeSlot slot
  setTop slot
  pure v

/-- Calls a metamethod for its first result, and holds the arguments meanwhile. -/
abbrev callHandler (f : Value) (args : List Value) : Action Value :=
  callHandlerHolding run args f args

/-- Calls a value for all its results, and holds some values meanwhile. -/
def callValueHolding (held : List Value) (f : Value) (args : List Value) :
    Action (List Value) := do
  let slot ← placeCall f args
  callAt run slot args.length none held
  let top ← view (·.running.top)
  let vs ← takeSlots slot (top - slot)
  setTop slot
  pure vs

/-- Calls a value for all its results. -/
abbrev callValue (f : Value) (args : List Value) : Action (List Value) :=
  callValueHolding run [] f args

/-- Drops the frames above a depth, after an error. -/
def unwind (depth boundary : Nat) : Action Unit := do
  closeUpvalues boundary
  modify (·.modifyRunning fun s => { s.modifyFrames (·.shrink depth) with top := boundary })

/-- Calls a value; an error gets a traceback and leaves no frames behind. -/
def call (f : Value) (args : List Value) : Action (List Value) := do
  let depth ← view (·.depth)
  let boundary ← view (·.callBase)
  match ← attempt (callValue run f args) with
  | .ok vs => pure vs
  | .error e =>
    let e ← view (·.addTraceback e)
    unwind depth boundary
    throw e

/-- Calls a value; an error becomes a result. -/
def protectedCall (f : Value) (args : List Value) : Action (Bool × List Value) := do
  let depth ← view (·.depth)
  let boundary ← view (·.callBase)
  match ← attempt (callValue run f args) with
  | .ok vs => pure (true, vs)
  | .error e =>
    unwind depth boundary
    pure (false, [e.value])

end

end LuaMachine
