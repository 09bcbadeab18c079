import LuaMachine.ChunkName
import LuaMachine.Fault

/-!
The machine: a heap, the strand that runs, the strands that wait for it, and the limits. What the
machine does is an `Action`, which keeps the state it reached when it fails.
-/

namespace LuaMachine

structure Machine where
  heap : Heap
  /-- The strand of the running coroutine, or the main one. -/
  running : Strand
  /-- The strands that resumed the running one, innermost first. -/
  parked : List Strand
  /-- The running coroutine. -/
  current : Option CoroutineId
  globals : TableId
  /-- The metatable all strings share. -/
  stringMeta : Option TableId
  /-- Which code cache of the heap the machine uses. -/
  cache : Nat
  options : Options
  /-- The values on their way from a yield to the resumption it answers. -/
  yielded : List Value
  /-- Nested calls from native code, over all strands. -/
  nativeCalls : Nat
  /-- What was printed. -/
  output : String
  /-- Values that are held elsewhere: by the embedding program, by other machines, and by native
  code while it calls handlers. -/
  held : List Value := []

abbrev Action (α : Type) := EStateM Fault Machine α

namespace Machine

@[inline]
def modifyHeap (f : Heap → Heap) : Machine → Machine
  | ⟨heap, running, parked, current, globals, strings, cache, options, yielded, calls, out, held⟩ =>
    ⟨f heap, running, parked, current, globals, strings, cache, options, yielded, calls, out, held⟩

@[inline]
def modifyRunning (f : Strand → Strand) : Machine → Machine
  | ⟨heap, running, parked, current, globals, strings, cache, options, yielded, calls, out, held⟩ =>
    ⟨heap, f running, parked, current, globals, strings, cache, options, yielded, calls, out, held⟩

/-- Changes heap and running strand together. -/
@[inline]
def modifyBoth (f : Heap → Strand → Heap × Strand) : Machine → Machine
  | ⟨heap, running, parked, current, globals, strings, cache, options, yielded, calls, out, held⟩ =>
    let (heap, running) := f heap running
    ⟨heap, running, parked, current, globals, strings, cache, options, yielded, calls, out, held⟩

variable (m : Machine)

def topFrame? : Option Frame := m.running.frames.back?

def depth : Nat := m.running.frames.size

/-- Where a frame is in its source: `chunk:line: `. -/
def framePosition (f : Frame) : String :=
  match f.closure? with
  | none => ""
  | some c =>
    let p := (m.heap.closure c).proto
    let line := ((p.line? (f.pc - 1)).map fun l => toString l.toNat).getD "?"
    ChunkName.render p.source ++ ":" ++ line ++ ": "

/-- The position of the running code: the frame on top, or the caller of the host function
there. -/
def position : String :=
  let frames := m.running.frames
  match frames.back? with
  | none => ""
  | some f =>
    if f.isLua then m.framePosition f
    else if frames.size < 2 then ""
    else ((frames[frames.size - 2]?).map m.framePosition).getD ""

/-- The position of the frame a number of levels below the top. -/
def positionAt (level : Nat) : String :=
  let n := m.running.frames.size
  if level = 0 ∨ n ≤ level then ""
  else ((m.running.frames[n - 1 - level]?).map m.framePosition).getD ""

/-- One frame in a traceback. -/
def traceFrame (f : Frame) : String :=
  let here :=
    match f.closure? with
    | none => "\n\t[C]: ?"
    | some c =>
      let p := (m.heap.closure c).proto
      let source := ChunkName.render p.source
      let line := ((p.line? (f.pc - 1)).map fun l => toString l.toNat).getD "?"
      let what :=
        if p.lineDefined = 0 then "main chunk"
        else "function <" ++ source ++ ":" ++ toString p.lineDefined.toNat ++ ">"
      "\n\t" ++ source ++ ":" ++ line ++ ": in " ++ what
  if f.tail then here ++ "\n\t(tail call): ?" else here

/-- The frames of the running strand, innermost first. -/
def traceback : String :=
  m.running.frames.toList.reverse.foldl (fun s f => s ++ m.traceFrame f) "stack traceback:"

/-- An error of the program that has no traceback yet gets that of the running strand. -/
def addTraceback : Fault → Fault
  | .runtime v none => .runtime v (some m.traceback)
  | e => e

/-- The first slot a nested call may use: above the free slot, and above the registers of the
running Lua function. -/
def callBase : Nat :=
  match m.topFrame? with
  | some f => if f.isLua then max m.running.top f.top else m.running.top
  | none => m.running.top

end Machine

/-! Basic actions -/

/-- A part of the state. -/
@[inline]
def view {α : Type} (f : Machine → α) : Action α := fun m => .ok (f m) m

/-- Runs an action and returns what it threw; what no protected call may see goes on. -/
def attempt {α : Type} (x : Action α) : Action (Except Fault α) := fun m =>
  match x m with
  | .ok a m => .ok (.ok a) m
  | .error e m => if e.isFatal then .error e m else .ok (.error e) m

/-- Fails with a complaint, after the position of the running code. -/
def raise {α : Type} (c : Complaint) : Action α := fun m =>
  .error (.runtime (.str (m.position ++ c.message)) none) m

def readSlot (i : Nat) : Action Value := fun m =>
  if h : i < m.running.stack.size then EStateM.Result.ok m.running.stack[i] m
  else .error .crash m

def writeSlot (i : Nat) (v : Value) : Action Unit := fun m =>
  if i < m.running.stack.size then
    .ok () (m.modifyRunning fun s => s.modifyStack (·.setIfInBounds i v))
  else .error .crash m

/-- Reads a slot and leaves `nil` there. -/
def takeSlot (i : Nat) : Action Value := do
  let v ← readSlot i
  writeSlot i .nil
  pure v

def setTop (top : Nat) : Action Unit :=
  modify (·.modifyRunning fun s => { s with top := top })

/-- Writes values into consecutive slots. -/
def writeSlots (i : Nat) : List Value → Action Unit
  | [] => pure ()
  | v :: vs => do
    writeSlot i v
    writeSlots (i + 1) vs

/-- Clears `n` slots from `i` on. -/
def clearSlots (i : Nat) : Nat → Action Unit
  | 0 => pure ()
  | n + 1 => do
    writeSlot i .nil
    clearSlots (i + 1) n

/-- Moves `n` values from `source` on to `target` on, lowest first; `nil` stays behind. -/
def moveSlots (target source : Nat) : Nat → Action Unit
  | 0 => pure ()
  | n + 1 => do
    let v ← takeSlot source
    writeSlot target v
    moveSlots (target + 1) (source + 1) n

/-- Copies `n` values from `source` on to `target` on, lowest first. -/
def copySlots (target source : Nat) : Nat → Action Unit
  | 0 => pure ()
  | n + 1 => do
    let v ← readSlot source
    writeSlot target v
    copySlots (target + 1) (source + 1) n

/-- Moves the `n` values below `finish` up by one slot, highest first. -/
def shiftSlots (finish : Nat) : Nat → Action Unit
  | 0 => pure ()
  | n + 1 => do
    let v ← takeSlot (finish - 1)
    writeSlot finish v
    shiftSlots (finish - 1) n

/-- Takes `n` values from slot `i` on and puts them before a list, the last one first. -/
def takeSlotsOnto (i : Nat) : Nat → List Value → Action (List Value)
  | 0, vs => pure vs
  | n + 1, vs => do
    let v ← takeSlot (i + n)
    takeSlotsOnto i n (v :: vs)

/-- Takes `n` values from slot `i` on. -/
def takeSlots (i n : Nat) : Action (List Value) := takeSlotsOnto i n []

/-- The values of `n` slots from `i` on, before a list. -/
def readSlotsOnto (i : Nat) : Nat → List Value → Action (List Value)
  | 0, vs => pure vs
  | n + 1, vs => do
    let v ← readSlot (i + n)
    readSlotsOnto i n (v :: vs)

/-- The values of `n` slots from `i` on. -/
def readSlots (i n : Nat) : Action (List Value) := readSlotsOnto i n []

/-- A stack with at least `needed` slots; it is made twice as large as needed, within the limit. -/
def Strand.grow (needed limit : Nat) (s : Strand) : Strand :=
  s.modifyStack fun stack =>
    stack ++ Array.replicate (min (2 * needed) limit - stack.size) Value.nil

/-- Makes sure that the running stack has a number of slots. -/
def ensureStack (needed : Nat) : Action Unit := fun m =>
  if needed ≤ m.running.stack.size then .ok () m
  else if m.options.maxStack < needed then .error (.stackOverflow m.position false) m
  else
    let limit := m.options.maxStack
    .ok () (m.modifyRunning fun s => s.grow needed limit)

/-- Remembers the next instruction of the frame on top. -/
def savePc (pc : Nat) : Action Unit :=
  modify (·.modifyRunning fun s => s.modifyFrames fun frames =>
    frames.modify (frames.size - 1) fun f => { f with pc := pc })

def pushFrame (f : Frame) : Action Unit :=
  modify (·.modifyRunning fun s => s.modifyFrames (·.push f))

/-- Removes the frame on top. -/
def popFrame? : Action (Option Frame) := do
  let f ← view (·.topFrame?)
  modify (·.modifyRunning fun s => s.modifyFrames (·.pop))
  pure f

/-- Closes the upvalues of the running strand at or above a slot. -/
def closeUpvalues (level : Nat) : Action Unit :=
  modify (·.modifyBoth fun h s => h.closeCells s level)

/-- Changes the heap and gives what the change gives. -/
@[inline]
def onHeap {α : Type} (f : Heap → α × Heap) : Action α := fun m =>
  match m with
  | ⟨heap, running, parked, current, globals, strings, cache, options, yielded, calls, out, held⟩ =>
    let (a, heap) := f heap
    .ok a ⟨heap, running, parked, current, globals, strings, cache, options, yielded, calls, out, held⟩

def newTable (t : Table) : Action Value := do
  let id ← onHeap (·.newTable t)
  pure (.table id)

/-- Sets a field of a table without metamethods. -/
def rawSet (t : TableId) (key v : Value) : Action Unit :=
  match key.key with
  | .ok k => modify (·.modifyHeap fun h => h.modifyTable t (·.setKey k key v))
  | .error e => raise (.key e)

def print (text : String) : Action Unit := fun m =>
  match m with
  | ⟨heap, running, parked, current, globals, strings, cache, options, yielded, calls, out, held⟩ =>
    .ok () ⟨heap, running, parked, current, globals, strings, cache, options, yielded, calls,
      out ++ text, held⟩

end LuaMachine
