import LuaMachine.CodeCache
import LuaMachine.Table

/-!
The heap: tables, closures, upvalue cells, coroutines and code caches, each named by its place.
Nothing is ever removed, so names stay valid. Machines that share a heap can exchange values.
-/

namespace LuaMachine

structure CellId where
  index : Nat
  deriving DecidableEq, Hashable, Repr

/-- Whose register stack it is: a machine's main one or a coroutine's. -/
inductive Owner
  | main (machine : Nat)
  | coroutine (c : CoroutineId)
  deriving DecidableEq, Repr

/-- An upvalue: a slot of a live stack, or a value of its own. -/
inductive Cell
  | opened (owner : Owner) (slot : Nat)
  | closed (v : Value)
  deriving Inhabited

def Cell.isOpen : Cell → Bool
  | opened .. => true
  | closed _ => false

/-- A prototype bound to upvalues and an environment. -/
structure Closure where
  proto : Prototype
  upvalues : Array CellId
  env : TableId
  /-- What compiling the prototype gave, once the closure was called. -/
  unit : Option (Except CompileError CompiledUnit) := none

instance : Inhabited Closure := ⟨{ proto := default, upvalues := #[], env := ⟨0⟩ }⟩

/-- A host function with captured values. -/
structure HostClosure where
  function : HostFunction
  captured : List Value

instance : Inhabited HostClosure := ⟨⟨.embedded "", []⟩⟩

/-- An activation of a function. -/
structure Frame where
  function : Function
  /-- The unit that runs the function, if it was compiled. -/
  unit : Option CompiledUnit
  /-- The slot of the called value, to which results go. -/
  slot : Nat
  /-- The slot of the first register. -/
  base : Nat
  /-- The end of the register window. -/
  top : Nat
  /-- The next instruction. -/
  pc : Nat
  /-- How many results the caller wants; all of them if not said. -/
  wanted : Option Nat
  argCount : Nat
  /-- Surplus arguments kept below `base`. -/
  surplus : Nat
  /-- Whether the frame took the place of its caller's. -/
  tail : Bool

def Frame.closure? (f : Frame) : Option ClosureId :=
  match f.function with
  | .lua c => some c
  | _ => none

def Frame.isLua (f : Frame) : Bool := f.closure?.isSome

/-- An upvalue cell over a slot of a stack. -/
structure OpenCell where
  slot : Nat
  cell : CellId
  deriving DecidableEq, Repr

/-- A thread of execution: registers, frames and the cells that are open over the registers. -/
structure Strand where
  owner : Owner
  stack : Array Value
  /-- The first free slot. -/
  top : Nat
  frames : Array Frame
  openCells : List OpenCell
  /-- Native calls in progress, across which nothing may yield. -/
  boundaries : Nat

namespace Strand

def create (owner : Owner) : Strand where
  owner := owner
  stack := Array.replicate Limit.basicStack .nil
  top := 0
  frames := #[]
  openCells := []
  boundaries := 0

instance : Inhabited Strand := ⟨create (.main 0)⟩

@[inline]
def modifyStack (f : Array Value → Array Value) : Strand → Strand
  | ⟨owner, stack, top, frames, cells, boundaries⟩ =>
    ⟨owner, f stack, top, frames, cells, boundaries⟩

@[inline]
def modifyFrames (f : Array Frame → Array Frame) : Strand → Strand
  | ⟨owner, stack, top, frames, cells, boundaries⟩ =>
    ⟨owner, stack, top, f frames, cells, boundaries⟩

/-- The value of a slot; `nil` beyond the stack. -/
def peek (s : Strand) (slot : Nat) : Value := (s.stack[slot]?).getD .nil

end Strand

inductive CoroutineStatus
  | suspended
  | running
  /-- It resumed another coroutine and waits for it. -/
  | normal
  | dead
  deriving DecidableEq, Repr

def CoroutineStatus.name : CoroutineStatus → String
  | suspended => "suspended" | running => "running" | normal => "normal" | dead => "dead"

structure Coroutine where
  status : CoroutineStatus
  /-- Its strand while it is not being resumed. -/
  strand : Option Strand

instance : Inhabited Coroutine := ⟨⟨.dead, none⟩⟩

structure Heap where
  tables : Array Table := #[]
  closures : Array Closure := #[]
  hostClosures : Array HostClosure := #[]
  cells : Array Cell := #[]
  coroutines : Array Coroutine := #[]
  caches : Array CodeCache := #[]
  /-- The identity of the next prototype. -/
  nextPrototype : Nat := 1

namespace Heap

instance : Inhabited Heap := ⟨{}⟩

@[inline]
def modifyTables (f : Array Table → Array Table) : Heap → Heap
  | ⟨tables, closures, hosts, cells, coroutines, caches, next⟩ =>
    ⟨f tables, closures, hosts, cells, coroutines, caches, next⟩

@[inline]
def modifyClosures (f : Array Closure → Array Closure) : Heap → Heap
  | ⟨tables, closures, hosts, cells, coroutines, caches, next⟩ =>
    ⟨tables, f closures, hosts, cells, coroutines, caches, next⟩

@[inline]
def modifyCells (f : Array Cell → Array Cell) : Heap → Heap
  | ⟨tables, closures, hosts, cells, coroutines, caches, next⟩ =>
    ⟨tables, closures, hosts, f cells, coroutines, caches, next⟩

@[inline]
def modifyCoroutines (f : Array Coroutine → Array Coroutine) : Heap → Heap
  | ⟨tables, closures, hosts, cells, coroutines, caches, next⟩ =>
    ⟨tables, closures, hosts, cells, f coroutines, caches, next⟩

variable (h : Heap)

def table (t : TableId) : Table := (h.tables[t.index]?).getD .empty

def closure (c : ClosureId) : Closure := (h.closures[c.index]?).getD default

def hostClosure (c : HostClosureId) : HostClosure := (h.hostClosures[c.index]?).getD default

def cell (c : CellId) : Cell := (h.cells[c.index]?).getD default

def coroutine (c : CoroutineId) : Coroutine := (h.coroutines[c.index]?).getD default

def cache (i : Nat) : CodeCache := (h.caches[i]?).getD default

def modifyTable (t : TableId) (f : Table → Table) : Heap :=
  h.modifyTables (·.modify t.index f)

def modifyClosure (c : ClosureId) (f : Closure → Closure) : Heap :=
  h.modifyClosures (·.modify c.index f)

def modifyCoroutine (c : CoroutineId) (f : Coroutine → Coroutine) : Heap :=
  h.modifyCoroutines (·.modify c.index f)

def setCell (c : CellId) (cell : Cell) : Heap :=
  h.modifyCells (·.setIfInBounds c.index cell)

def newTable (t : Table) : TableId × Heap :=
  (⟨h.tables.size⟩, h.modifyTables (·.push t))

def newClosure (c : Closure) : ClosureId × Heap :=
  (⟨h.closures.size⟩, h.modifyClosures (·.push c))

def newHostClosure (c : HostClosure) : HostClosureId × Heap :=
  (⟨h.hostClosures.size⟩, { h with hostClosures := h.hostClosures.push c })

def newCell (c : Cell) : CellId × Heap :=
  (⟨h.cells.size⟩, h.modifyCells (·.push c))

/-- Closed cells for a list of values. -/
def newCells (vs : List Value) : Array CellId × Heap :=
  vs.foldl (fun (ids, h) v =>
    let (id, h) := h.newCell (.closed v)
    (ids.push id, h)) (#[], h)

/-- A suspended coroutine that will run the given function. -/
def newCoroutine (body : Value) : CoroutineId × Heap :=
  let id : CoroutineId := ⟨h.coroutines.size⟩
  let s := Strand.create (.coroutine id)
  let s := { s with stack := s.stack.setIfInBounds 0 body, top := 1 }
  (id, h.modifyCoroutines (·.push ⟨.suspended, some s⟩))

def newCache (backend : Backend) : Nat × Heap :=
  (h.caches.size, { h with caches := h.caches.push { backend := backend } })

/-- Gives a prototype tree identities no other tree of this heap has. -/
def identify (p : Prototype) : Prototype × Heap :=
  let (p, next) := p.identify h.nextPrototype
  (p, { h with nextPrototype := next })

/-- Compiles with one of the caches. -/
def compile (cache : Nat) (p : Prototype) : Except CompileError CompiledUnit × Heap :=
  let (r, c) := (h.cache cache).getOrCompile p
  (r, { h with caches := h.caches.setIfInBounds cache c })

/-- Closes the cells of a strand at or above a slot: each takes the value its slot has now. -/
def closeCells (s : Strand) (level : Nat) : Heap × Strand :=
  if s.openCells.isEmpty then (h, s)
  else
    let (above, below) := s.openCells.partition fun c => level ≤ c.slot
    let h := above.foldl (fun h c => h.setCell c.cell (.closed (s.peek c.slot))) h
    (h, { s with openCells := below })

end Heap

end LuaMachine
