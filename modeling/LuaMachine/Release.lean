import LuaMachine.Machine

/-!
Reference counts. A thing to which nothing refers any more goes away, and gives up its own
references; things that refer to each other in a ring stay. The upvalues open over a coroutine that
went away have the values of its registers as their own. What is gone is no longer referred to, so
it stays on the heap, and is told apart where that can be seen.
-/

namespace LuaMachine

/-- A thing of a heap that is counted. -/
inductive Item
  | table (t : TableId)
  | closure (c : ClosureId)
  | hostClosure (c : HostClosureId)
  | cell (c : CellId)
  | coroutine (c : CoroutineId)
  deriving DecidableEq, Hashable, Repr

/-! References -/

def Function.references : Function → List Item
  | .lua c => [.closure c]
  | .hostClosure c => [.hostClosure c]
  | .host _ => []

def Value.references : Value → List Item
  | .table t => [.table t]
  | .function f => f.references
  | .thread c => [.coroutine c]
  | _ => []

/-- Dead nodes hold on to their keys. -/
def Table.references (t : Table) : List Item :=
  t.array.toList.flatMap Value.references
    ++ t.nodes.toList.flatMap (fun node => node.key.references ++ node.value.references)
    ++ (t.metatable.map Item.table).toList

def Closure.references (c : Closure) : List Item :=
  .table c.env :: c.upvalues.toList.map .cell

/-- Registers that calls left behind count like those in use. -/
def Strand.references (s : Strand) : List Item :=
  s.stack.toList.flatMap Value.references
    ++ s.frames.toList.flatMap (fun f => f.function.references)
    ++ s.openCells.map (fun c => .cell c.cell)

def Machine.references (m : Machine) : List Item :=
  (m.running :: m.parked).flatMap Strand.references
    ++ (m.yielded ++ m.held).flatMap Value.references
    ++ (m.current.map Item.coroutine).toList
    ++ .table m.globals :: (m.stringMeta.map Item.table).toList

namespace Heap

variable (h : Heap)

/-- A cell that is open over a coroutine counts as holding the value it would keep. -/
def cellReferences : Cell → List Item
  | .closed v => v.references
  | .opened (.coroutine c) slot =>
    match (h.coroutine c).strand with
    | some s => (s.peek slot).references
    | none => []
  | .opened (.main _) _ => []

def references : Item → List Item
  | .table t => (h.table t).references
  | .closure c => (h.closure c).references
  | .hostClosure c => (h.hostClosure c).captured.flatMap Value.references
  | .cell c => h.cellReferences (h.cell c)
  | .coroutine c => ((h.coroutine c).strand.map Strand.references).getD []

def items : List Item :=
  (List.range h.tables.size).map (fun i => .table ⟨i⟩)
    ++ (List.range h.closures.size).map (fun i => .closure ⟨i⟩)
    ++ (List.range h.hostClosures.size).map (fun i => .hostClosure ⟨i⟩)
    ++ (List.range h.cells.size).map (fun i => .cell ⟨i⟩)
    ++ (List.range h.coroutines.size).map (fun i => .coroutine ⟨i⟩)

end Heap

namespace Heap

variable (h : Heap)

/-- Those of some items that are held from outside or to which one of these items refers. -/
def keepReferred (held items : List Item) : List Item :=
  let referred := Std.HashSet.ofList (held ++ items.flatMap h.references)
  items.filter referred.contains

/-- Lets items go to which no other one refers, until there are no more of them. -/
def keepFrom (held items : List Item) : List Item :=
  let kept := h.keepReferred held items
  if kept.length < items.length then keepFrom held kept else items
termination_by items.length

/-- The items that are left when the given ones are held from outside. -/
def kept (held : List Item) : List Item := h.keepFrom held h.items

/-- Closes the cells over a coroutine. -/
def closeCoroutine (c : CoroutineId) : Heap :=
  match (h.coroutine c).strand with
  | some s =>
    let (h, s) := h.closeCells s 0
    h.modifyCoroutine c fun ⟨status, _⟩ => ⟨status, some s⟩
  | none => h

/-- Closes the cells over the coroutines that are gone. -/
def reclaim (held : List Item) : Heap :=
  let kept := Std.HashSet.ofList (h.kept held)
  h.items.foldl (fun h i =>
    match i with
    | .coroutine c => if kept.contains i then h else h.closeCoroutine c
    | _ => h) h

end Heap

end LuaMachine
