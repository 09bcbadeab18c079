import LuaMachine.Release

/-!
Upvalues. An open one names a slot of the strand that made it; that strand runs, waits for the
running one, or is kept by its suspended coroutine. Where it is kept by a coroutine, an assignment
can give up the last reference to that coroutine.
-/

namespace LuaMachine

namespace Machine

variable (m : Machine)

/-- The strand of an owner. -/
def strand? (owner : Owner) : Option Strand :=
  if m.running.owner = owner then some m.running
  else
    match m.parked.find? (·.owner = owner) with
    | some s => some s
    | none =>
      match owner with
      | .coroutine c => (m.heap.coroutine c).strand
      | .main _ => none

/-- The value of an upvalue; `nil` where its strand or slot is gone. -/
def cellValue (c : CellId) : Value :=
  match m.heap.cell c with
  | .closed v => v
  | .opened owner slot => ((m.strand? owner).map (·.peek slot)).getD .nil

/-- Writes a slot of the strand of an owner, if both exist. -/
def setStrandSlot (owner : Owner) (slot : Nat) (v : Value) : Machine :=
  let put (s : Strand) : Strand := s.modifyStack (·.setIfInBounds slot v)
  if m.running.owner = owner then m.modifyRunning put
  else if m.parked.any (·.owner = owner) then
    { m with parked := m.parked.map fun s => if s.owner = owner then put s else s }
  else
    match owner with
    | .coroutine c =>
      m.modifyHeap fun h => h.modifyCoroutine c fun ⟨status, strand⟩ => ⟨status, strand.map put⟩
    | .main _ => m

/-- The machine with another value for an upvalue, whatever goes with the old one. -/
def setCellValue (c : CellId) (v : Value) : Machine :=
  match m.heap.cell c with
  | .closed _ => m.modifyHeap (·.setCell c (.closed v))
  | .opened owner slot => m.setStrandSlot owner slot v

/-- Whether something has not gone. -/
def isKept (i : Item) : Bool := (m.heap.kept m.references).contains i

/-- Whether, with another value for an upvalue, the coroutine goes over which it is open. One that
is being resumed does not. -/
def abandons (c : CellId) (v : Value) : Bool :=
  match m.heap.cell c with
  | .opened (.coroutine u) _ =>
    !(m.running :: m.parked).any (·.owner = .coroutine u)
      && !(m.setCellValue c v).isKept (.coroutine u) && m.isKept (.coroutine u)
  | _ => false

end Machine

/-- Assigns to an upvalue. A coroutine that goes with the old value closes its upvalues, also this
one, which is in use: that is a crash. -/
def assignUpvalue (c : CellId) (v : Value) : Action Unit := fun m =>
  if m.abandons c v then .error .crash m else .ok () (m.setCellValue c v)

/-- The open upvalue over a slot of the running strand, made if there is none. -/
def findUpvalue (slot : Nat) : Action CellId := do
  match ← view fun m => m.running.openCells.find? (·.slot = slot) with
  | some c => pure c.cell
  | none =>
    let owner ← view (·.running.owner)
    let id ← onHeap (·.newCell (.opened owner slot))
    modify (·.modifyRunning fun s => { s with openCells := ⟨slot, id⟩ :: s.openCells })
    pure id

end LuaMachine
