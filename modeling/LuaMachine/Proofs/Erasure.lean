import LuaMachine.Engine
import LuaMachine.Proofs.Action

/-!
What compiling leaves in a machine, and the machine without it: units in closures and frames, the
code caches, and the mode that asks for units. No other part of a machine depends on them.
-/

namespace LuaMachine

def Frame.erase (f : Frame) : Frame := { f with unit := none }

def Strand.erase (s : Strand) : Strand := s.modifyFrames (·.map Frame.erase)

def Coroutine.erase (co : Coroutine) : Coroutine := ⟨co.status, co.strand.map Strand.erase⟩

def Closure.erase (c : Closure) : Closure := { c with unit := none }

def CodeCache.erase (c : CodeCache) : CodeCache := { backend := c.backend }

def Heap.erase (h : Heap) : Heap :=
  { h with
    closures := h.closures.map Closure.erase
    coroutines := h.coroutines.map Coroutine.erase
    caches := h.caches.map CodeCache.erase }

def Machine.erase (m : Machine) : Machine :=
  { m with
    heap := m.heap.erase
    running := m.running.erase
    parked := m.parked.map Strand.erase
    options := { m.options with mode := .off } }

namespace Frame

variable (f : Frame)

@[simp] theorem erase_function : f.erase.function = f.function := rfl
@[simp] theorem erase_slot : f.erase.slot = f.slot := rfl
@[simp] theorem erase_base : f.erase.base = f.base := rfl
@[simp] theorem erase_top : f.erase.top = f.top := rfl
@[simp] theorem erase_pc : f.erase.pc = f.pc := rfl
@[simp] theorem erase_wanted : f.erase.wanted = f.wanted := rfl
@[simp] theorem erase_argCount : f.erase.argCount = f.argCount := rfl
@[simp] theorem erase_surplus : f.erase.surplus = f.surplus := rfl
@[simp] theorem erase_tail : f.erase.tail = f.tail := rfl
@[simp] theorem erase_unit : f.erase.unit = none := rfl
@[simp] theorem erase_closure? : f.erase.closure? = f.closure? := rfl
@[simp] theorem erase_isLua : f.erase.isLua = f.isLua := rfl

end Frame

namespace Strand

variable (s : Strand)

@[simp] theorem erase_owner : s.erase.owner = s.owner := rfl
@[simp] theorem erase_stack : s.erase.stack = s.stack := rfl
@[simp] theorem erase_top : s.erase.top = s.top := rfl
@[simp] theorem erase_frames : s.erase.frames = s.frames.map Frame.erase := rfl
@[simp] theorem erase_openCells : s.erase.openCells = s.openCells := rfl
@[simp] theorem erase_boundaries : s.erase.boundaries = s.boundaries := rfl
@[simp] theorem erase_peek (i : Nat) : s.erase.peek i = s.peek i := rfl

@[simp] theorem erase_create (owner : Owner) : (create owner).erase = create owner := by
  simp [erase, create, modifyFrames]

@[simp] theorem erase_modifyStack (f : Array Value → Array Value) :
    (s.modifyStack f).erase = s.erase.modifyStack f := rfl

end Strand

namespace Heap

variable (h : Heap)

@[simp] theorem erase_tables : h.erase.tables = h.tables := rfl
@[simp] theorem erase_hostClosures : h.erase.hostClosures = h.hostClosures := rfl
@[simp] theorem erase_cells : h.erase.cells = h.cells := rfl
@[simp] theorem erase_table (t : TableId) : h.erase.table t = h.table t := rfl
@[simp] theorem erase_hostClosure (c : HostClosureId) :
    h.erase.hostClosure c = h.hostClosure c := rfl
@[simp] theorem erase_cell (c : CellId) : h.erase.cell c = h.cell c := rfl

@[simp] theorem erase_closures_size : h.erase.closures.size = h.closures.size := by
  simp [erase]

@[simp]
theorem erase_closure (c : ClosureId) : h.erase.closure c = (h.closure c).erase := by
  simp only [closure, erase, Array.getElem?_map]
  cases h.closures[c.index]? <;> rfl

@[simp]
theorem erase_coroutine (c : CoroutineId) : h.erase.coroutine c = (h.coroutine c).erase := by
  simp only [coroutine, erase, Array.getElem?_map]
  cases h.coroutines[c.index]? <;> rfl

@[simp] theorem erase_modifyTables (f : Array Table → Array Table) :
    (h.modifyTables f).erase = h.erase.modifyTables f := rfl

@[simp] theorem erase_modifyCells (f : Array Cell → Array Cell) :
    (h.modifyCells f).erase = h.erase.modifyCells f := rfl

theorem erase_newClosure (c : Closure) :
    h.erase.newClosure c.erase = ((h.newClosure c).1, (h.newClosure c).2.erase) := by
  simp [newClosure, modifyClosures, erase]

theorem erase_modifyCoroutine (c : CoroutineId) {f g : Coroutine → Coroutine}
    (hfg : ∀ co, g co.erase = (f co).erase) :
    (h.modifyCoroutine c f).erase = h.erase.modifyCoroutine c g := by
  simp only [modifyCoroutine, modifyCoroutines, erase, mk.injEq, true_and, and_true]
  ext i hi hi'
  · simp
  · by_cases hc : c.index = i <;> simp [Array.getElem_modify, hc, hfg]

/-- Units are erased wherever they were put. -/
theorem erase_modifyClosure_unit (c : ClosureId) (u : Option (Except CompileError CompiledUnit)) :
    (h.modifyClosure c fun closure => { closure with unit := u }).erase = h.erase := by
  simp only [modifyClosure, modifyClosures, erase, mk.injEq, true_and, and_true]
  ext i hi hi'
  · simp
  · by_cases hc : c.index = i <;> simp [Array.getElem_modify, hc, Closure.erase]

theorem erase_closeCells (s : Strand) (level : Nat) :
    h.erase.closeCells s.erase level =
      ((h.closeCells s level).1.erase, (h.closeCells s level).2.erase) := by
  have hfold (cells : List OpenCell) (h : Heap) :
      cells.foldl (fun h c => h.setCell c.cell (.closed (s.erase.peek c.slot))) h.erase =
        (cells.foldl (fun h c => h.setCell c.cell (.closed (s.peek c.slot))) h).erase := by
    induction cells generalizing h with
    | nil => rfl
    | cons c cells ih => exact ih (h.setCell c.cell (.closed (s.peek c.slot)))
  unfold closeCells
  rw [Strand.erase_openCells]
  split
  · rfl
  · exact Prod.ext (hfold _ _) rfl

theorem erase_newCoroutine (body : Value) :
    h.erase.newCoroutine body = ((h.newCoroutine body).1, (h.newCoroutine body).2.erase) := by
  simp [newCoroutine, modifyCoroutines, erase, Coroutine.erase, Strand.erase, Strand.create,
    Strand.modifyFrames]

/-- Adds a closed cell for each of some values, after other ones. -/
def addCells (h : Heap) (ids : Array CellId) : List Value → Array CellId × Heap
  | [] => (ids, h)
  | v :: vs => addCells (h.newCell (.closed v)).2 (ids.push (h.newCell (.closed v)).1) vs

theorem newCells_eq_addCells (vs : List Value) : h.newCells vs = h.addCells #[] vs := by
  have hfold (ids : Array CellId) (h : Heap) : h.addCells ids vs =
      vs.foldl (fun p v => (p.1.push (p.2.newCell (.closed v)).1, (p.2.newCell (.closed v)).2))
        (ids, h) := by
    induction vs generalizing ids h with
    | nil => rfl
    | cons v vs ih => exact ih _ _
  exact (hfold #[] h).symm

theorem erase_addCells (ids : Array CellId) (vs : List Value) :
    h.erase.addCells ids vs = ((h.addCells ids vs).1, (h.addCells ids vs).2.erase) := by
  induction vs generalizing ids h with
  | nil => rfl
  | cons v vs ih => exact ih (h.newCell (.closed v)).2 _

theorem erase_newCells (vs : List Value) :
    h.erase.newCells vs = ((h.newCells vs).1, (h.newCells vs).2.erase) := by
  rw [newCells_eq_addCells, newCells_eq_addCells, erase_addCells]

end Heap

namespace Machine

variable (m : Machine)

@[simp] theorem erase_heap : m.erase.heap = m.heap.erase := rfl
@[simp] theorem erase_running : m.erase.running = m.running.erase := rfl
@[simp] theorem erase_parked : m.erase.parked = m.parked.map Strand.erase := rfl
@[simp] theorem erase_current : m.erase.current = m.current := rfl
@[simp] theorem erase_globals : m.erase.globals = m.globals := rfl
@[simp] theorem erase_stringMeta : m.erase.stringMeta = m.stringMeta := rfl
@[simp] theorem erase_cache : m.erase.cache = m.cache := rfl
@[simp] theorem erase_mode : m.erase.options.mode = .off := rfl
@[simp] theorem erase_maxStack : m.erase.options.maxStack = m.options.maxStack := rfl
@[simp] theorem erase_maxDepth : m.erase.options.maxDepth = m.options.maxDepth := rfl
@[simp] theorem erase_maxNativeCalls :
    m.erase.options.maxNativeCalls = m.options.maxNativeCalls := rfl
@[simp] theorem erase_yielded : m.erase.yielded = m.yielded := rfl
@[simp] theorem erase_nativeCalls : m.erase.nativeCalls = m.nativeCalls := rfl
@[simp] theorem erase_output : m.erase.output = m.output := rfl

/-! Views that erasing does not change -/

@[simp]
theorem erase_topFrame? : m.erase.topFrame? = m.topFrame?.map Frame.erase := by
  simp [topFrame?, Array.back?_eq_getElem?]

@[simp] theorem erase_depth : m.erase.depth = m.depth := by simp [depth]

@[simp]
theorem erase_framePosition (f : Frame) : m.erase.framePosition f.erase = m.framePosition f := by
  simp only [framePosition, Frame.erase_closure?, erase_heap, Heap.erase_closure, Frame.erase_pc]
  rfl

theorem map_erase_framePosition (o : Option Frame) :
    (o.map Frame.erase).map m.erase.framePosition = o.map m.framePosition := by
  cases o <;> simp

@[simp]
theorem erase_position : m.erase.position = m.position := by
  simp only [position, erase_running, Strand.erase_frames, Array.size_map, Array.back?_map,
    Array.getElem?_map, map_erase_framePosition]
  cases m.running.frames.back? <;> simp

@[simp]
theorem erase_positionAt (level : Nat) : m.erase.positionAt level = m.positionAt level := by
  simp only [positionAt, erase_running, Strand.erase_frames, Array.size_map, Array.getElem?_map,
    map_erase_framePosition]

@[simp]
theorem erase_traceFrame (f : Frame) : m.erase.traceFrame f.erase = m.traceFrame f := by
  simp only [traceFrame, Frame.erase_closure?, erase_heap, Heap.erase_closure, Frame.erase_pc,
    Frame.erase_tail]
  rfl

@[simp]
theorem erase_traceback : m.erase.traceback = m.traceback := by
  simp [traceback, ← List.map_reverse, List.foldl_map]

@[simp]
theorem erase_addTraceback (e : Fault) : m.erase.addTraceback e = m.addTraceback e := by
  unfold addTraceback
  split <;> simp

@[simp]
theorem erase_callBase : m.erase.callBase = m.callBase := by
  simp only [callBase, erase_topFrame?]
  cases m.topFrame? <;> rfl

@[simp]
theorem erase_handler? (v : Value) (e : Event) : m.erase.handler? v e = m.handler? v e := by
  cases v <;> rfl

@[simp]
theorem erase_binaryHandler? (l r : Value) (e : Event) :
    m.erase.binaryHandler? l r e = m.binaryHandler? l r e := by
  simp [binaryHandler?]

@[simp]
theorem erase_resolveIndex (key : Value) (steps : Nat) (v : Value) :
    m.erase.resolveIndex key steps v = m.resolveIndex key steps v := by
  induction steps generalizing v with
  | zero => rfl
  | succ n ih => cases v <;> simp [resolveIndex, ih]

@[simp]
theorem erase_resolveAssign (key : Value) (steps : Nat) (v : Value) :
    m.erase.resolveAssign key steps v = m.resolveAssign key steps v := by
  induction steps generalizing v with
  | zero => rfl
  | succ n ih => cases v <;> simp [resolveAssign, ih]

theorem erase_strand? (owner : Owner) :
    m.erase.strand? owner = (m.strand? owner).map Strand.erase := by
  have hfind : (m.parked.map Strand.erase).find? (·.owner = owner) =
      (m.parked.find? (·.owner = owner)).map Strand.erase := by
    rw [List.find?_map]
    rfl
  simp only [strand?, erase_running, erase_parked, erase_heap, Strand.erase_owner, hfind,
    Heap.erase_coroutine]
  split
  · rfl
  · cases m.parked.find? (·.owner = owner) with
    | some s => rfl
    | none => cases owner <;> rfl

@[simp]
theorem erase_cellValue (c : CellId) : m.erase.cellValue c = m.cellValue c := by
  simp only [cellValue, erase_heap, Heap.erase_cell, erase_strand?]
  cases m.heap.cell c with
  | closed v => rfl
  | opened owner slot => cases hs : m.strand? owner <;> simp [hs]

/-! Changes that erasing commutes with -/

theorem erase_modifyHeap {f g : Heap → Heap} (hfg : ∀ h, g h.erase = (f h).erase) :
    m.erase.modifyHeap g = (m.modifyHeap f).erase := by
  simp [modifyHeap, erase, hfg]

theorem erase_modifyRunning {f g : Strand → Strand} (hfg : ∀ s, g s.erase = (f s).erase) :
    m.erase.modifyRunning g = (m.modifyRunning f).erase := by
  simp [modifyRunning, erase, hfg]

theorem erase_setStrandSlot (owner : Owner) (slot : Nat) (v : Value) :
    m.erase.setStrandSlot owner slot v = (m.setStrandSlot owner slot v).erase := by
  have hany : (m.parked.map Strand.erase).any (·.owner = owner) =
      m.parked.any (·.owner = owner) := by
    rw [List.any_map]
    rfl
  simp only [setStrandSlot, erase_running, erase_parked, Strand.erase_owner, hany]
  split_ifs
  · exact m.erase_modifyRunning fun s => rfl
  · simp only [erase, mk.injEq, true_and, and_true, List.map_map]
    apply List.map_congr_left
    intro s _
    by_cases hs : s.owner = owner <;> simp [hs]
  · cases owner with
    | main n => rfl
    | coroutine c =>
      apply erase_modifyHeap
      intro h
      refine (h.erase_modifyCoroutine c fun co => ?_).symm
      cases co with
      | mk status strand => cases strand <;> rfl

theorem erase_setCellValue (c : CellId) (v : Value) :
    m.erase.setCellValue c v = (m.setCellValue c v).erase := by
  simp only [setCellValue, erase_heap, Heap.erase_cell]
  cases m.heap.cell c with
  | closed w => rfl
  | opened owner slot => exact m.erase_setStrandSlot owner slot v

theorem erase_setStatus (c : CoroutineId) (status : CoroutineStatus) :
    m.erase.setStatus c status = (m.setStatus c status).erase :=
  m.erase_modifyHeap fun h =>
    (h.erase_modifyCoroutine c (f := fun co => ⟨status, co.strand⟩) fun _ => rfl).symm

theorem erase_setCurrentStatus (status : CoroutineStatus) :
    m.erase.setCurrentStatus status = (m.setCurrentStatus status).erase := by
  simp only [setCurrentStatus, erase_current]
  cases m.current with
  | none => rfl
  | some c => exact m.erase_setStatus c status

end Machine

end LuaMachine
