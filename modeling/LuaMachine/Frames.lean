import LuaMachine.Machine

/-!
Entering and leaving functions. The arguments of a call lie above the called value. A function that
takes surplus arguments keeps them below its registers; results go to where the called value was.
-/

namespace LuaMachine

/-- Fails when the running strand has as many frames as it may have. -/
def checkDepth : Action Unit := fun m =>
  if m.options.maxDepth ≤ m.depth then .error (.stackOverflow m.position false) m else .ok () m

/-- The table of surplus arguments: the arguments, and how many there are under `n`. -/
def surplusTable (vs : List Value) : Table :=
  let (t, _) := vs.foldl (fun ((t : Table), (i : Nat)) v => (t.setInt i v, i + 1)) (.empty, 1)
  t.setString "n" (.ofNat vs.length)

/-- Moves the fixed parameters of a function above all its arguments, the surplus ones staying
below. Gives the new base and the number of registers in use. -/
def layOutSurplus (p : Prototype) (base argCount : Nat) : Action (Nat × Nat) := do
  let fixed := p.paramCount.toNat
  let actual := max argCount fixed
  let args ← if p.needsArg then some <$> readSlots (base + fixed) (actual - fixed) else pure none
  moveSlots (base + actual) base fixed
  match args with
  | none => pure (base + actual, fixed)
  | some vs =>
    let t ← newTable (surplusTable vs)
    writeSlot (base + actual + fixed) t
    pure (base + actual, fixed + 1)

/-- Pushes a frame for a Lua function. -/
def enterLua (c : ClosureId) (unit : Option CompiledUnit) (slot argCount : Nat)
    (wanted : Option Nat) (tail : Bool) : Action Unit := do
  checkDepth
  let p ← view fun m => (m.heap.closure c).proto
  let fixed := p.paramCount.toNat
  let window := p.maxStack.toNat
  let start := slot + 1
  ensureStack (start + max argCount fixed + fixed + window + 1 + Limit.extraStack)
  clearSlots (start + min argCount fixed) (fixed - argCount)
  let (base, live) ← if p.isVararg then layOutSurplus p start argCount else pure (start, fixed)
  let top := base + max window live
  clearSlots (base + live) (top - (base + live))
  setTop top
  pushFrame {
    function := .lua c
    unit := unit
    slot := slot
    base := base
    top := top
    pc := 0
    wanted := wanted
    argCount := argCount
    surplus := if p.isVararg then max argCount fixed - fixed else 0
    tail := tail }

/-- Leaves the frame on top with `n` results from slot `first` on: as many as the caller wants are
moved to where the function was. -/
def leaveFrame (first n : Nat) : Action Unit := do
  match ← popFrame? with
  | none => pure ()
  | some f =>
    let count := f.wanted.getD n
    ensureStack (f.slot + count + Limit.extraStack)
    moveSlots f.slot first (min count n)
    clearSlots (f.slot + n) (count - n)
    match f.wanted with
    | none => setTop (f.slot + n)
    | some _ =>
      match ← view (·.topFrame?) with
      | some caller => setTop (if caller.isLua then caller.top else f.slot + count)
      | none => setTop (f.slot + count)

end LuaMachine
