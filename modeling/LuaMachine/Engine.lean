import LuaMachine.Execution

/-!
The engines. The interpreter decodes the word it is at; a compiled frame runs lowered operations, on
the threaded engine or as native blocks. Each engine saves the place after an instruction before it
runs it, and runs a frame until another one is on top.
-/

namespace LuaMachine

/-- A decoded instruction and the place after its operand words. -/
structure Fetched where
  operation : Operation
  after : Nat

/-- Decodes the instruction at `pc`, which holds the word `w`. -/
def Prototype.decode (p : Prototype) (pc : Nat) (w : UInt32) : Except Malformation Fetched :=
  let i : Instruction := ⟨w⟩
  match i.opcode? with
  | none => .error (.invalidOpcode i.opcodeNumber pc)
  | some .setList =>
    let batch := ((p.code[pc + 1]?).getD 0).toNat
    let after := if i.c = 0 then pc + 2 else pc + 1
    .ok ⟨.ofInstruction i .setList pc batch [], after⟩
  | some .closure =>
    match p.children[i.bx]? with
    | none => .error (.child i.bx pc)
    | some child =>
      let n := child.upvalueCount.toNat
      if p.code.size < pc + 1 + n then .error (.missingCaptures pc)
      else
        let words := (p.code.extract (pc + 1) (pc + 1 + n)).toList
        .ok ⟨.ofInstruction i .closure pc 0 (words.map Capture.ofWord), pc + 1 + n⟩
  | some op => .ok ⟨.ofInstruction i op pc 0 [], pc + 1⟩

/-- The place after an operation, `next` being the one after it in the code. -/
def Flow.target (pc next : Nat) : Flow → Option Nat
  | .next => some next
  | .skip => some (pc + 2)
  | .jump target => some target
  | .leave => none

/-- The status a native block sees. -/
def Flow.status : Flow → Status
  | next => .next
  | skip | jump _ => .taken
  | leave => .frame

/-- The operation a helper runs for the instruction at `pc`. It is not told where a jump leads or
whether to skip, which is left to the block that calls it. The captures of a closure it finds in the
lowered code. -/
def HelperCall.operation (l : Lowered) (pc : Nat) : HelperCall → Except Malformation Operation
  | ⟨.move, a, b, _⟩ => .ok (.move a b)
  | ⟨.loadK, a, b, _⟩ => .ok (.loadK a b)
  | ⟨.loadBool, a, b, _⟩ => .ok (.loadBool a b false)
  | ⟨.loadNil, a, b, _⟩ => .ok (.loadNil a b)
  | ⟨.getUpval, a, b, _⟩ => .ok (.getUpval a b)
  | ⟨.getGlobal, a, b, _⟩ => .ok (.getGlobal a b)
  | ⟨.getTable, a, b, c⟩ => .ok (.getTable a b c)
  | ⟨.setGlobal, a, b, _⟩ => .ok (.setGlobal a b)
  | ⟨.setUpval, a, b, _⟩ => .ok (.setUpval a b)
  | ⟨.setTable, a, b, c⟩ => .ok (.setTable a b c)
  | ⟨.newTable, a, b, c⟩ => .ok (.newTable a b c)
  | ⟨.self, a, b, c⟩ => .ok (.self a b c)
  | ⟨.arith op, a, b, c⟩ => .ok (.arith op a b c)
  | ⟨.unm, a, b, _⟩ => .ok (.unm a b)
  | ⟨.not, a, b, _⟩ => .ok (.not a b)
  | ⟨.len, a, b, _⟩ => .ok (.len a b)
  | ⟨.concat, a, b, c⟩ => .ok (.concat a b c)
  | ⟨.eq, a, b, c⟩ => .ok (.eq a b c)
  | ⟨.lt, a, b, c⟩ => .ok (.lt a b c)
  | ⟨.le, a, b, c⟩ => .ok (.le a b c)
  | ⟨.test, a, _, c⟩ => .ok (.test a c)
  | ⟨.testSet, a, b, c⟩ => .ok (.testSet a b c)
  | ⟨.call, a, b, c⟩ => .ok (.call a b c)
  | ⟨.tailCall, a, b, _⟩ => .ok (.tailCall a b)
  | ⟨.ret, a, b, _⟩ => .ok (.ret a b)
  | ⟨.forLoop, a, _, _⟩ => .ok (.forLoop a 0)
  | ⟨.forPrep, a, _, _⟩ => .ok (.forPrep a 0)
  | ⟨.tForLoop, a, _, c⟩ => .ok (.tForLoop a c)
  | ⟨.setList, a, b, c⟩ => .ok (.setList a b c)
  | ⟨.close, a, _, _⟩ => .ok (.close a)
  | ⟨.closure, a, b, _⟩ =>
    match l.operations[pc]? with
    | some (.closure _ _ captures) => .ok (.closure a b captures)
    | _ => .error (.noClosure pc)
  | ⟨.vararg, a, b, _⟩ => .ok (.vararg a b)

/-- The place after an operation of lowered code that does not jump. -/
def Lowered.after (l : Lowered) (pc : Nat) : Operation → Nat
  | .setList .. => (l.fallthrough pc).getD (pc + 1)
  | .closure _ _ captures => pc + 1 + captures.length
  | _ => pc + 1

section

variable (embedding : Embedding) (run : Run) (w : Window)

/-- One step of the interpreter: the place after it, unless another frame is on top. -/
def interpretStep (pc : Nat) : Action (Option Nat) := do
  match w.closure.proto.code[pc]? with
  | none => throw (.malformed (.pcRange pc))
  | some word =>
    savePc (pc + 1)
    match w.closure.proto.decode pc word with
    | .error e => throw (.malformed e)
    | .ok f =>
      let flow ← perform embedding run w f.operation
      pure (flow.target pc f.after)

/-- One step of the threaded engine. -/
def threadedStep (l : Lowered) (pc : Nat) : Action (Option Nat) := do
  match l.operations[pc]? with
  | none => throw (.malformed (.pcRange pc))
  | some op =>
    savePc (pc + 1)
    match op with
    | .data => throw (.malformed (.operandWord pc))
    | op =>
      let flow ← perform embedding run w op
      pure (flow.target pc (l.after pc op))

/-- Reports a crash inside native code as an error of the code. -/
def guarded {α : Type} (pc : Nat) (x : Action α) : Action α := fun m =>
  match x m with
  | .error .crash m => .error (.malformed (.nativeCrash pc)) m
  | r => r

/-- Runs a helper for the instruction at `pc` and gives its status. -/
def HelperCall.perform (l : Lowered) (pc : Nat) (call : HelperCall) : Action Status :=
  match call.operation l pc with
  | .error e => throw (.malformed e)
  | .ok op => Flow.status <$> LuaMachine.perform embedding run w op

/-- Runs a block and gives its exit. -/
def runBlock (l : Lowered) (pc : Nat) : Block → Action Exit
  | .goto e => pure e
  | .run call next taken frame => do
    savePc (pc + 1)
    let status ← guarded pc (call.perform embedding run w l pc)
    pure ((Block.run call next taken frame).exit status)

/-- One step of native code. -/
def nativeStep (unit : CompiledUnit) (code : NativeCode) (pc : Nat) : Action (Option Nat) := do
  match code.blocks[pc]? with
  | none => throw (.malformed (.leftNativeCode unit.protoId))
  | some block =>
    match ← runBlock embedding run w unit.lowered pc block with
    | .block pc => pure (some pc)
    | .leave => pure none
    | .off => throw (.malformed (.leftNativeCode unit.protoId))

end

/-- One step of a frame: how it goes on, unless another frame is on top. -/
def step (embedding : Embedding) (run : Run) (a : Activation) : Action (Option Activation) := do
  let pc ←
    match a.engine with
    | .interpreter => interpretStep embedding run a.window a.pc
    | .threaded unit => threadedStep embedding run a.window unit.lowered a.pc
    | .native unit code => nativeStep embedding run a.window unit code a.pc
  match pc with
  | some pc => pure (some { a with pc := pc })
  | none => pure none

/-- The engine for a unit. -/
def Engine.ofUnit (u : CompiledUnit) : Engine :=
  match u.native with
  | some code => .native u code
  | none => .threaded u

/-- Takes up the frame on top where it stopped. Compiled code can only be entered at its entries. -/
def activate : Action Activation := do
  match ← view (·.topFrame?) with
  | none => throw (.malformed .noFrame)
  | some f =>
    match f.closure? with
    | none => throw (.malformed .hostFrame)
    | some c =>
      let closure ← view fun m => m.heap.closure c
      let window : Window := ⟨closure, f.base⟩
      match f.unit with
      | none => pure ⟨window, .interpreter, f.pc⟩
      | some unit =>
        if unit.lowered.isEntry f.pc then pure ⟨window, .ofUnit unit, f.pc⟩
        else throw (.malformed (.notAnEntry unit.protoId f.pc))

/-- Runs a job within a number of steps. -/
def run (embedding : Embedding) : Nat → Run
  | 0, _ => throw .outOfFuel
  | fuel + 1, .call slot argCount wanted => do
    let depth ← view (·.depth)
    match ← startCall embedding (run embedding fuel) slot argCount wanted with
    | .done => pure ()
    | .pushed => run embedding fuel (.execute depth)
  | fuel + 1, .execute depth => do
    if (← view (·.depth)) ≤ depth then pure ()
    else
      let a ← activate
      run embedding fuel (.proceed depth a)
  | fuel + 1, .proceed depth a => do
    match ← step embedding (run embedding fuel) a with
    | some a => run embedding fuel (.proceed depth a)
    | none => run embedding fuel (.execute depth)

end LuaMachine
