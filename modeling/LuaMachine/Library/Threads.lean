import LuaMachine.Coroutines
import LuaMachine.HostCall

/-!
The coroutine functions.
-/

namespace LuaMachine.Library

variable (run : Run)

def requireCoroutine (i : Nat) (function : String) : Action CoroutineId := do
  match ← arg i with
  | .thread c => pure c
  | _ => argumentError i function (.plain "coroutine expected")

/-- A coroutine over the first argument. -/
def newCoroutine (function : String) : Action CoroutineId := do
  let body ← requireArg 1 function
  if body.closure?.isNone then argumentError 1 function (.plain "Lua function expected")
  createCoroutine body

def create : Action Nat := do
  giveValue (.thread (← newCoroutine "create"))

def resume : Action Nat := do
  let c ← requireCoroutine 1 "resume"
  let (ok, vs) ← LuaMachine.resume run c ((← args).drop 1)
  pushValues (.bool ok :: vs)

def yield : Action Nat := do
  yieldValues (← args)

def status : Action Nat := do
  let c ← requireCoroutine 1 "status"
  giveValue (.str (← view fun m => (m.heap.coroutine c).status.name))

/-- The running coroutine, or `nil`. -/
def running : Action Nat := do
  giveValue (← view fun m => (m.current.map Value.thread).getD .nil)

/-- A function that resumes a new coroutine. -/
def wrap : Action Nat := do
  let c ← newCoroutine "wrap"
  let id ← onHeap (·.newHostClosure ⟨.builtin .wrapped, [.thread c]⟩)
  giveValue (.function (.hostClosure id))

/-- What `wrap` makes: an error in the coroutine is raised here. -/
def wrapped : Action Nat := do
  match ← capturedValue 0 with
  | .thread c =>
    let (ok, vs) ← LuaMachine.resume run c (← args)
    if !ok then throw (.runtime (vs.headD .nil) none)
    pushValues vs
  | _ => raise .wrappedMissing

def isyieldable : Action Nat := do
  giveValue (.bool (← view (·.isYieldable)))

end LuaMachine.Library
