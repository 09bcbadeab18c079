import LuaMachine.Frames
import LuaMachine.Library.Registry

/-!
Calls. The called value is resolved to a function, through `__call` handlers if need be; a host
function runs at once, a Lua function gets a frame.
-/

namespace LuaMachine

/-- What a call runs. -/
inductive Target
  | host (f : Function)
  | lua (c : ClosureId) (unit : Option CompiledUnit)

/-- How a call has started. -/
inductive CallOutcome
  /-- A host function ran; its results are in place. -/
  | done
  /-- A Lua frame is on top now. -/
  | pushed
  deriving DecidableEq, Repr

/-- What compiling a closure's prototype gives, found out at its first call. -/
def compileClosure (c : ClosureId) : Action (Except CompileError CompiledUnit) := do
  match ← view fun m => (m.heap.closure c).unit with
  | some r => pure r
  | none =>
    let cache ← view (·.cache)
    let p ← view fun m => (m.heap.closure c).proto
    let r ← onHeap (·.compile cache p)
    modify (·.modifyHeap fun h => h.modifyClosure c ({ · with unit := some r }))
    pure r

/-- The unit to run a closure with, as the mode says. -/
def unitFor (c : ClosureId) : Action (Option CompiledUnit) := do
  match ← view (·.options.mode) with
  | .off => pure none
  | mode =>
    match ← compileClosure c with
    | .ok unit => pure (some unit)
    | .error e => if mode = .strict then throw (.compile e) else pure none

/-- Fails where a name stands for no closure of the heap. -/
def checkClosure (c : ClosureId) : Action Unit := fun m =>
  if c.index < m.heap.closures.size then .ok () m else .error .crash m

/-- Resolves the value in a slot within a number of steps. A value with a `__call` handler is
replaced by it and becomes the first argument. Gives the target and the number of arguments. -/
def resolveCall (slot : Nat) : Nat → Nat → Action (Target × Nat)
  | 0, _ => raise .callChain
  | steps + 1, argCount => do
    match ← readSlot slot with
    | .function (.lua c) =>
      checkClosure c
      let unit ← unitFor c
      pure (.lua c unit, argCount)
    | .function f => pure (.host f, argCount)
    | v =>
      match ← view fun m => m.handler? v .call with
      | none => raise (.operand .call v.type)
      | some h =>
        ensureStack (slot + argCount + 2 + Limit.extraStack)
        shiftSlots (slot + argCount + 1) (argCount + 1)
        writeSlot slot h
        setTop (slot + argCount + 2)
        resolveCall slot steps (argCount + 1)

section

variable (embedding : Embedding) (run : Run)

def HostFunction.body : HostFunction → HostBody
  | .builtin f => f.body
  | .embedded name => embedding name

/-- Runs a host function in a frame of its own. -/
def callHost (f : Function) (slot argCount : Nat) (wanted : Option Nat) : Action Unit := do
  checkDepth
  let base := slot + 1
  ensureStack (base + argCount + Limit.minStack)
  setTop (base + argCount)
  pushFrame {
    function := f
    unit := none
    slot := slot
    base := base
    top := base + argCount + Limit.minStack
    pc := 0
    wanted := wanted
    argCount := argCount
    surplus := 0
    tail := false }
  let n ←
    match f with
    | .host g => g.body embedding run
    | .hostClosure c =>
      let g ← view fun m => (m.heap.hostClosure c).function
      g.body embedding run
    | .lua _ => throw .crash
  let top ← view (·.running.top)
  let n := min n (top - base)
  leaveFrame (top - n) n

/-- Starts a call of the value in a slot. -/
def startCall (slot argCount : Nat) (wanted : Option Nat) : Action CallOutcome := do
  match ← resolveCall slot Limit.metaSteps argCount with
  | (.host f, argCount) =>
    callHost embedding run f slot argCount wanted
    pure .done
  | (.lua c unit, argCount) =>
    enterLua c unit slot argCount wanted false
    pure .pushed

/-- Replaces the frame on top by a call of a Lua function. -/
def replaceFrame (c : ClosureId) (unit : Option CompiledUnit) (slot argCount : Nat) :
    Action Unit := do
  match ← popFrame? with
  | none => throw (.malformed .noTailFrame)
  | some f =>
    closeUpvalues f.base
    moveSlots f.slot slot (argCount + 1)
    setTop (f.slot + 1 + argCount)
    enterLua c unit f.slot argCount f.wanted true

/-- Calls a value in place of the running function; a host function runs within it. -/
def startTailCall (slot argCount : Nat) : Action CallOutcome := do
  match ← resolveCall slot Limit.metaSteps argCount with
  | (.host f, argCount) =>
    callHost embedding run f slot argCount none
    pure .done
  | (.lua c unit, argCount) =>
    replaceFrame c unit slot argCount
    pure .pushed

end

end LuaMachine
