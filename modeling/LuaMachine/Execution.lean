import LuaMachine.Arithmetic
import LuaMachine.Call
import LuaMachine.Comparison
import LuaMachine.Concatenation
import LuaMachine.Index
import LuaMachine.Upvalue

/-!
What each operation does. All engines run operations through `perform` and differ only in how they
find the next one.
-/

namespace LuaMachine

/-- Where control goes after an operation. -/
inductive Flow
  | next
  /-- The next instruction is skipped. -/
  | skip
  | jump (target : Nat)
  /-- Another frame is on top now. -/
  | leave
  deriving DecidableEq, Repr

namespace Window

variable (w : Window)

def constant (k : Nat) : Action Value :=
  match w.closure.proto.constants[k]? with
  | some c => pure (.ofConstant c)
  | none => throw .crash

def get (r : Nat) : Action Value := readSlot (w.base + r)

def set (r : Nat) (v : Value) : Action Unit := writeSlot (w.base + r) v

/-- A register or a constant. -/
def rk (x : Nat) : Action Value :=
  if Instruction.isConstant x then w.constant (Instruction.constantIndex x) else w.get x

def upvalue (i : Nat) : Action CellId :=
  match w.closure.upvalues[i]? with
  | some c => pure c
  | none => throw .crash

def env : Value := .table w.closure.env

/-- The cells a new closure captures. -/
def capture : List Capture → Array CellId → Action (Array CellId)
  | [], cells => pure cells
  | .register r :: cs, cells => do
    let c ← findUpvalue (w.base + r)
    capture cs (cells.push c)
  | .upvalue i :: cs, cells => do
    let c ← w.upvalue i
    capture cs (cells.push c)

/-- The number of values from a register to the top, the register itself left out. -/
def openCount (r : Nat) : Action Nat := do
  let top ← view (·.running.top)
  if top < w.base + r + 1 then throw .crash
  pure (top - (w.base + r) - 1)

/-- The arguments of a call: `b - 1` of them, or all up to the top. -/
def callArgs (a b : Nat) : Action Nat :=
  if b = 0 then w.openCount a
  else do
    setTop (w.base + a + b)
    pure (b - 1)

/-- Turns a register into a number for a loop. -/
def loopNumber (r : Nat) (what : String) : Action Float := do
  match (← w.get r).toNumber? with
  | some n =>
    w.set r (.number n)
    pure n
  | none => raise (.loopBound what)

/-- Stores `n` values from a slot on in a table, from an integer on. -/
def storeList (t : TableId) (slot : Nat) (key : Nat) : Nat → Action Unit
  | 0 => pure ()
  | n + 1 => do
    let v ← readSlot slot
    modify (·.modifyHeap fun h => h.modifyTable t (·.setInt key v))
    storeList t (slot + 1) (key + 1) n

end Window

/-- Sets the free slot to the end of the registers of the frame on top. -/
def resetTop : Action Unit := do
  match ← view (·.topFrame?) with
  | some f => setTop f.top
  | none => pure ()

/-- A test skips the next instruction when its outcome is not the wanted one. -/
def testFlow (outcome : Bool) (wanted : Nat) : Flow :=
  if outcome != (wanted != 0) then .skip else .next

def CallOutcome.flow : CallOutcome → Flow
  | done => .next
  | pushed => .leave

section

variable (embedding : Embedding) (run : Run) (w : Window)

/-- The field of a register, without the detour through metamethods where the field is there. -/
def getField (v key : Value) : Action Value := do
  match v with
  | .table t =>
    let found ← view fun m => (m.heap.table t).get key
    if found.isNil then index run v key else pure found
  | v => index run v key

def forPrep (a : Nat) : Action Unit := do
  let init ← w.loopNumber a "initial value"
  let _ ← w.loopNumber (a + 1) "limit"
  let step ← w.loopNumber (a + 2) "step"
  w.set a (.number (init - step))

/-- Advances a numeric loop and says whether it goes on. -/
def forLoop (a : Nat) : Action Bool := do
  match ← w.get a, ← w.get (a + 1), ← w.get (a + 2) with
  | .number i, .number limit, .number step =>
    let i := i + step
    let goesOn := if step > 0 then decide (i ≤ limit) else decide (limit ≤ i)
    if goesOn then
      w.set a (.number i)
      w.set (a + 3) (.number i)
      pure true
    else
      w.set (a + 3) .nil
      pure false
  | _, _, _ => raise .loopState

/-- Advances an iterator and says whether it has ended. -/
def iterate (a c : Nat) : Action Bool := do
  let slot := w.base + a + 3
  ensureStack (slot + 3 + c)
  copySlots slot (w.base + a) 3
  setTop (slot + 3)
  callAt run slot 2 (some c)
  resetTop
  let first ← readSlot slot
  if first.isNil then pure true
  else
    writeSlot (slot - 1) first
    pure false

def setList (a b batch : Nat) : Action Unit := do
  let n ← if b = 0 then w.openCount a else pure b
  match ← w.get a with
  | .table t =>
    Window.storeList t (w.base + a + 1) ((batch - 1) * Limit.itemsPerBatch + 1) n
    if b = 0 then resetTop
  | _ => raise .listTarget

def makeClosure (child : Nat) (captures : List Capture) : Action Value := do
  match w.closure.proto.children[child]? with
  | none => throw .crash
  | some p =>
    let cells ← w.capture captures #[]
    let id ← onHeap (·.newClosure { proto := p, upvalues := cells, env := w.closure.env })
    pure (.function (.lua id))

/-- Copies surplus arguments into registers: `b - 1` of them, or all. -/
def spreadSurplus (a b : Nat) : Action Unit := do
  let n ← view fun m => (m.topFrame?.map (·.surplus)).getD 0
  let source := w.base - n
  let target := w.base + a
  if b = 0 then
    ensureStack (target + n + Limit.extraStack)
    copySlots target source n
    setTop (target + n)
  else
    copySlots target source (min (b - 1) n)
    clearSlots (target + n) (b - 1 - n)

/-- Runs one operation of a frame. -/
def perform : Operation → Action Flow
  | .move a b => do
    w.set a (← w.get b)
    pure .next
  | .loadK a k => do
    w.set a (← w.constant k)
    pure .next
  | .loadBool a b skip => do
    w.set a (.bool (b != 0))
    pure (if skip then .skip else .next)
  | .loadNil a b => do
    if b + 1 < a then throw .crash
    clearSlots (w.base + a) (b + 1 - a)
    pure .next
  | .getUpval a b => do
    let c ← w.upvalue b
    w.set a (← view (·.cellValue c))
    pure .next
  | .getGlobal a k => do
    w.set a (← index run w.env (← w.constant k))
    pure .next
  | .getTable a b c => do
    let v ← w.get b
    let key ← w.rk c
    w.set a (← getField run v key)
    pure .next
  | .setGlobal a k => do
    let key ← w.constant k
    assign run w.env key (← w.get a)
    pure .next
  | .setUpval a b => do
    let v ← w.get a
    let c ← w.upvalue b
    assignUpvalue c v
    pure .next
  | .setTable a b c => do
    let v ← w.get a
    let key ← w.rk b
    assign run v key (← w.rk c)
    pure .next
  | .newTable a _ _ => do
    -- the operands ask for room in advance, which is not modelled, nor that there may be too little
    w.set a (← newTable .empty)
    pure .next
  | .self a b c => do
    let v ← w.get b
    let key ← w.rk c
    w.set (a + 1) v
    w.set a (← index run v key)
    pure .next
  | .arith op a b c => do
    let l ← w.rk b
    let r ← w.rk c
    w.set a (← arith run op l r)
    pure .next
  | .unm a b => do
    w.set a (← negate run (← w.get b))
    pure .next
  | .not a b => do
    let v ← w.get b
    w.set a (.bool !v.isTruthy)
    pure .next
  | .len a b => do
    w.set a (← length (← w.get b))
    pure .next
  | .concat a b c => do
    if c < b then throw .crash
    concatRange run (c - b + 1) (c - b + 1) (w.base + c + 1)
    w.set a (← w.get b)
    pure .next
  | .jmp target => pure (.jump target)
  | .eq a b c => do
    let l ← w.rk b
    let r ← w.rk c
    pure (testFlow (← equals run l r) a)
  | .lt a b c => do
    let l ← w.rk b
    let r ← w.rk c
    pure (testFlow (← lessThan run l r) a)
  | .le a b c => do
    let l ← w.rk b
    let r ← w.rk c
    pure (testFlow (← lessEqual run l r) a)
  | .test a c => do
    let v ← w.get a
    pure (testFlow v.isTruthy c)
  | .testSet a b c => do
    let v ← w.get b
    if v.isTruthy == (c != 0) then
      w.set a v
      pure .next
    else pure .skip
  | .call a b c => do
    let n ← w.callArgs a b
    let wanted := if c = 0 then none else some (c - 1)
    CallOutcome.flow <$> startCall embedding run (w.base + a) n wanted
  | .tailCall a b => do
    let n ← w.callArgs a b
    CallOutcome.flow <$> startTailCall embedding run (w.base + a) n
  | .ret a b => do
    let first := w.base + a
    let top ← view (·.running.top)
    closeUpvalues w.base
    leaveFrame first (if b = 0 then top - first else b - 1)
    pure .leave
  | .forLoop a target => do
    pure (if ← forLoop w a then .jump target else .next)
  | .forPrep a target => do
    forPrep w a
    pure (.jump target)
  | .tForLoop a c => do
    pure (if ← iterate run w a c then .skip else .next)
  | .setList a b batch => do
    setList w a b batch
    pure .next
  | .close a => do
    closeUpvalues (w.base + a)
    pure .next
  | .closure a child captures => do
    w.set a (← makeClosure w child captures)
    pure .next
  | .vararg a b => do
    spreadSurplus w a b
    pure .next
  | .data => throw .crash

end

end LuaMachine
