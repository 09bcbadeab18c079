import LuaMachine.Frames
import LuaMachine.Invoke

/-!
Coroutines. Resuming one parks the running strand and runs the coroutine's; yielding leaves the
frames where they are and hands values to whoever resumed. The host function that yielded is
finished by the next resumption, with its arguments as results.
-/

namespace LuaMachine

/-- A suspended coroutine with a Lua function as its body. -/
def createCoroutine (body : Value) : Action CoroutineId := do
  if body.closure?.isNone then raise .coroutineBody
  onHeap (·.newCoroutine body)

namespace Machine

/-- Whether the running code may yield. -/
def isYieldable (m : Machine) : Bool := m.current.isSome && m.running.boundaries == 0

def setStatus (m : Machine) (c : CoroutineId) (status : CoroutineStatus) : Machine :=
  m.modifyHeap fun h => h.modifyCoroutine c fun ⟨_, strand⟩ => ⟨status, strand⟩

/-- Sets the status of the running coroutine, if one runs. -/
def setCurrentStatus (m : Machine) (status : CoroutineStatus) : Machine :=
  match m.current with
  | some c => m.setStatus c status
  | none => m

/-- Lets a suspended coroutine run in place of the running strand. -/
def switchTo (m : Machine) (c : CoroutineId) : Machine :=
  let strand := ((m.heap.coroutine c).strand).getD default
  let m := m.modifyHeap fun h => h.modifyCoroutine c fun _ => ⟨.running, none⟩
  let m := m.setCurrentStatus .normal
  { m with running := strand, parked := m.running :: m.parked, current := some c }

/-- Puts the running strand back into its coroutine and goes on with the one that resumed it,
which was `resumer`'s. -/
def switchBack (m : Machine) (c : CoroutineId) (resumer : Option CoroutineId) : Machine :=
  match m.parked with
  | [] => m
  | s :: parked =>
    let strand := m.running
    let m := { m with running := s, parked := parked, current := resumer }
    let m := m.modifyHeap fun h => h.modifyCoroutine c fun ⟨status, _⟩ => ⟨status, some strand⟩
    m.setCurrentStatus .running

/-- Drops all frames of a strand after closing its upvalues. -/
def resetRunning (m : Machine) : Machine :=
  m.modifyBoth fun h s =>
    let (h, s) := h.closeCells s 0
    (h, { s with frames := #[], top := 0, boundaries := 0 })

end Machine

/-- Fails in the way that suspends the running coroutine, if it may be suspended. -/
def yieldValues {α : Type} (vs : List Value) : Action α := do
  if ← view (·.current.isNone) then raise .yieldOutside
  if ← view fun m => m.running.boundaries != 0 then raise .yieldAcross
  modify fun m => { m with yielded := vs }
  throw .yield

section

variable (run : Run)

/-- Runs the strand of a coroutine until it ends or yields. -/
def runCoroutine (args : List Value) : Action (List Value) := do
  let n := args.length
  if ← view fun m => m.running.frames.isEmpty then
    ensureStack (1 + n + Limit.extraStack)
    writeSlots 1 args
    setTop (1 + n)
    run (.call 0 n none)
  else
    let first ← view (·.running.top)
    ensureStack (first + n + Limit.extraStack)
    writeSlots first args
    setTop (first + n)
    leaveFrame first n
    run (.execute 0)
  let top ← view (·.running.top)
  let vs ← takeSlots 0 top
  setTop 0
  pure vs

/-- Resumes a suspended coroutine and waits until it ends, yields or fails. -/
def resumeSuspended (c : CoroutineId) (args : List Value) : Action (Bool × List Value) := do
  let resumer ← view (·.current)
  modify (·.switchTo c)
  modify fun m => { m with nativeCalls := m.nativeCalls + 1 }
  let outcome ← attempt (runCoroutine run args)
  modify fun m => { m with nativeCalls := m.nativeCalls - 1 }
  match outcome with
  | .ok vs =>
    modify fun m => (m.switchBack c resumer).setStatus c .dead
    pure (true, vs)
  | .error .yield =>
    modify fun m => (m.switchBack c resumer).setStatus c .suspended
    let vs ← view (·.yielded)
    modify fun m => { m with yielded := [] }
    pure (true, vs)
  | .error e =>
    modify fun m => (m.resetRunning.switchBack c resumer).setStatus c .dead
    pure (false, [e.value])

/-- Resumes a coroutine: whether that went well, and the values it gave or the error. -/
def resume (c : CoroutineId) (args : List Value) : Action (Bool × List Value) := do
  match ← view fun m => (m.heap.coroutine c).status with
  | .suspended =>
    if ← view fun m => decide (m.options.maxNativeCalls ≤ m.nativeCalls) then
      pure (false, [.str "C stack overflow"])
    else resumeSuspended run c args
  | .dead => pure (false, [.str "cannot resume dead coroutine"])
  | _ => pure (false, [.str "cannot resume non-suspended coroutine"])

end

end LuaMachine
