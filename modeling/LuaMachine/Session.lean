import LuaMachine.Engine

/-!
Machines as a program uses them: making one on a heap, opening libraries, loading prototypes and
binary chunks, running them.
-/

namespace LuaMachine

/-- A machine with empty globals. Its number tells it apart from the other machines on the heap. -/
def Machine.create (heap : Heap) (number cache : Nat) (options : Options) : Machine :=
  let (globals, heap) := heap.newTable .empty
  { heap := heap
    running := .create (.main number)
    parked := []
    current := none
    globals := globals
    stringMeta := none
    cache := cache
    options := options
    yielded := []
    nativeCalls := 0
    output := "" }

/-- The bound on the steps of one run, out of reach of any run that ends. -/
def stepLimit : Nat := 4611686018427387904

/-- Runs jobs with the host functions of an embedding program. -/
def start (embedding : Embedding) : Run := run embedding stepLimit

/-- A closure over the globals with upvalues of its own. The prototype is not checked. -/
def bindClosure (p : Prototype) (upvalues : List Value) : Action Value := do
  let cells ← onHeap (·.newCells upvalues)
  let env ← view (·.globals)
  let id ← onHeap (·.newClosure { proto := p, upvalues := cells, env := env })
  pure (.function (.lua id))

/-- Checks a prototype and makes a closure of it. -/
def loadPrototype (p : Prototype) : Action Value :=
  match Verifier.verify p with
  | .error d => throw (.malformed (.defect d))
  | .ok _ => bindClosure p (List.replicate p.upvalueCount.toNat .nil)

/-- Loads a binary chunk. -/
def loadBinary (bytes : List UInt8) : Action Value := do
  match Chunk.load bytes with
  | .error f => throw (.malformed (.chunk f))
  | .ok p => loadPrototype (← onHeap (·.identify p))

/-- Loads a prototype and runs it as a main chunk. -/
def execute (run : Run) (p : Prototype) : Action (List Value) := do
  let f ← loadPrototype p
  call run f []

/-- Sets or clears the metatable of all strings. -/
def setStringMetatable (metatable : Option TableId) : Action Unit :=
  modify fun m => { m with stringMeta := metatable }

def setMode (mode : CompileMode) : Action Unit :=
  modify fun m => { m with options := { m.options with mode := mode } }

/-- What was printed since the last time this was asked. -/
def takeOutput : Action String := do
  let text ← view (·.output)
  modify fun m => { m with output := "" }
  pure text

namespace Machine

/-- The code cache of a machine. -/
def codeCache (m : Machine) : CodeCache := m.heap.cache m.cache

end Machine

/-- Compiles a prototype with the machine's cache. -/
def compilePrototype (p : Prototype) : Action (Except CompileError CompiledUnit) := do
  let cache ← view (·.cache)
  onHeap (·.compile cache p)

end LuaMachine
