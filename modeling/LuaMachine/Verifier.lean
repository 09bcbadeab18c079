import LuaMachine.Prototype

/-!
Checking prototypes before they run. Every register, constant, upvalue, nested prototype and jump
that an instruction names by a fixed operand has to exist, and no jump may land on an operand word.
The words are scanned left to right with a countdown of the operand words still to come.
-/

namespace LuaMachine.Verifier

inductive Complaint
  | emptyFunction
  | lineCount
  | smallStack
  | noReturn
  | invalidOpcode (number : Nat)
  | register (r : Nat)
  | registers (first count : Nat)
  | constant (k : Nat)
  | upvalue (i : Nat)
  | target (t : Int)
  | loadNilOrder
  | concatOperands
  | loopVariables
  | missingBatch
  | zeroBatch
  | child (i : Nat)
  | missingCaptures
  | badCapture
  | varargOutside
  | operandTarget
  deriving DecidableEq, Repr

def Complaint.message : Complaint → String
  | emptyFunction => "empty function"
  | lineCount => "line info does not match code size"
  | smallStack => "stack too small for parameters"
  | noReturn => "function does not end with RETURN"
  | invalidOpcode n => "invalid opcode " ++ toString n
  | register r => "register " ++ toString r ++ " out of range"
  | registers first count =>
    "register range " ++ toString first ++ "+" ++ toString count ++ " out of range"
  | constant k => "constant " ++ toString k ++ " out of range"
  | upvalue i => "upvalue " ++ toString i ++ " out of range"
  | target t => "jump target " ++ toString t ++ " out of range"
  | loadNilOrder => "LOADNIL with B < A"
  | concatOperands => "CONCAT needs at least two operands"
  | loopVariables => "TFORLOOP without loop variables"
  | missingBatch => "SETLIST missing its batch word"
  | zeroBatch => "SETLIST batch 0"
  | child i => "prototype " ++ toString i ++ " out of range"
  | missingCaptures => "CLOSURE missing capture instructions"
  | badCapture => "bad capture instruction after CLOSURE"
  | varargOutside => "VARARG in a non-vararg function"
  | operandTarget => "jump into an operand word"

/-- A complaint and where it arose. -/
structure Defect where
  source : String
  pc : Nat
  complaint : Complaint
  deriving DecidableEq, Repr

def Defect.message (d : Defect) : String :=
  d.source ++ " at pc " ++ toString d.pc ++ ": " ++ d.complaint.message

abbrev Check := Except Complaint Unit

def require (ok : Bool) (complaint : Complaint) : Check :=
  if ok then pure () else throw complaint

section

variable (p : Prototype)

def register (r : Nat) : Check := require (r < p.maxStack.toNat) (.register r)

/-- Registers `first` up to `first + count`, the last excluded. -/
def registers (first count : Nat) : Check :=
  require (first + count ≤ p.maxStack.toNat) (.registers first count)

def constant (k : Nat) : Check := require (k < p.constants.size) (.constant k)

def rk (x : Nat) : Check :=
  if Instruction.isConstant x then constant p (Instruction.constantIndex x) else register p x

def upvalue (i : Nat) : Check := require (i < p.upvalueCount.toNat) (.upvalue i)

def target (t : Int) : Except Complaint Nat :=
  if 0 ≤ t ∧ t < p.code.size then pure t.toNat else throw (.target t)

def capture (w : UInt32) : Check :=
  let i : Instruction := ⟨w⟩
  match i.opcode? with
  | some .move => register p i.b
  | some .getUpval => upvalue p i.b
  | _ => throw .badCapture

/-- What an instruction adds to the scan: the targets it may go to and how many operand words
follow it. -/
structure Footprint where
  targets : List Nat := []
  operands : Nat := 0

/-- Checks one instruction; `rest` is the code after it. -/
def instruction (pc : Nat) (i : Instruction) (rest : List UInt32) :
    Except Complaint Footprint := do
  let some op := i.opcode? | throw (.invalidOpcode i.opcodeNumber)
  match op with
  | .move | .unm | .not | .len =>
    register p i.a
    register p i.b
    pure {}
  | .loadK | .getGlobal | .setGlobal =>
    register p i.a
    constant p i.bx
    pure {}
  | .loadBool =>
    register p i.a
    if i.c = 0 then pure {}
    else
      let t ← target p (pc + 2)
      pure { targets := [t] }
  | .loadNil =>
    require (i.a ≤ i.b) .loadNilOrder
    register p i.b
    pure {}
  | .getUpval | .setUpval =>
    register p i.a
    upvalue p i.b
    pure {}
  | .getTable =>
    register p i.a
    register p i.b
    rk p i.c
    pure {}
  | .setTable | .add | .sub | .mul | .div | .mod | .pow =>
    register p i.a
    rk p i.b
    rk p i.c
    pure {}
  | .newTable =>
    register p i.a
    pure {}
  | .self =>
    registers p i.a 2
    register p i.b
    rk p i.c
    pure {}
  | .concat =>
    register p i.a
    require (i.b < i.c) .concatOperands
    register p i.c
    pure {}
  | .jmp =>
    let t ← target p (pc + 1 + i.sbx)
    pure { targets := [t] }
  | .eq | .lt | .le =>
    rk p i.b
    rk p i.c
    let t ← target p (pc + 2)
    pure { targets := [t] }
  | .test =>
    register p i.a
    let t ← target p (pc + 2)
    pure { targets := [t] }
  | .testSet =>
    register p i.a
    register p i.b
    let t ← target p (pc + 2)
    pure { targets := [t] }
  | .call =>
    register p i.a
    if 0 < i.b then registers p i.a i.b
    if 1 < i.c then registers p i.a (i.c - 1)
    pure {}
  | .tailCall =>
    register p i.a
    if 0 < i.b then registers p i.a i.b
    pure {}
  | .ret =>
    if 1 < i.b then registers p i.a (i.b - 1)
    pure {}
  | .forLoop | .forPrep =>
    registers p i.a 4
    let t ← target p (pc + 1 + i.sbx)
    pure { targets := [t] }
  | .tForLoop =>
    require (0 < i.c) .loopVariables
    registers p i.a (3 + i.c)
    let t ← target p (pc + 2)
    pure { targets := [t] }
  | .setList =>
    register p i.a
    if 0 < i.b then registers p i.a (i.b + 1)
    if i.c = 0 then
      match rest with
      | [] => throw .missingBatch
      | batch :: _ =>
        require (batch ≠ 0) .zeroBatch
        pure { operands := 1 }
    else pure {}
  | .close => pure {}
  | .closure =>
    register p i.a
    let some child := p.children[i.bx]? | throw (.child i.bx)
    let n := child.upvalueCount.toNat
    require (n ≤ rest.length) .missingCaptures
    (rest.take n).forM (capture p)
    pure { operands := n }
  | .vararg =>
    require p.isVararg .varargOutside
    register p i.a
    if 1 < i.b then registers p i.a (i.b - 1)
    pure {}

/-- All targets of the code, in order, and which of its words are operands. -/
structure Scan where
  targets : List Nat
  operands : List Bool

def Defect.at {α : Type} (pc : Nat) : Except Complaint α → Except Defect α
  | .ok x => .ok x
  | .error complaint => .error ⟨p.source, pc, complaint⟩

/-- Scans the words from `pc` on, of which the first `pending` are operands. -/
def scan (pc pending : Nat) : List UInt32 → Except Defect Scan
  | [] => pure ⟨[], []⟩
  | w :: rest =>
    match pending with
    | pending + 1 => do
      let s ← scan (pc + 1) pending rest
      pure { s with operands := true :: s.operands }
    | 0 => do
      let foot ← Defect.at p pc (instruction p pc ⟨w⟩ rest)
      let s ← scan (pc + 1) foot.operands rest
      pure ⟨foot.targets ++ s.targets, false :: s.operands⟩

/-- The checks that concern the function as a whole. -/
def shape : Except Defect Unit := do
  Defect.at p 0 do
    require (p.code.size ≠ 0) .emptyFunction
    require (p.lines.isEmpty || p.lines.size = p.code.size) .lineCount
    require (p.paramCount.toNat + (if p.needsArg then 1 else 0) ≤ p.maxStack.toNat) .smallStack
  Defect.at p (p.code.size - 1) do
    require ((p.instruction? (p.code.size - 1)).bind Instruction.opcode? = some .ret) .noReturn

/-- Checks one prototype without its children. -/
def function : Except Defect Unit := do
  shape p
  let s ← scan p 0 0 p.code.toList
  s.targets.forM fun t => Defect.at p t (require (s.operands[t]? ≠ some true) .operandTarget)

end

mutual

/-- Checks a prototype and all nested ones. -/
def verify : Prototype → Except Defect Unit
  | ⟨id, source, line, last, nup, npar, va, max, code, ks, children, lines, locals, names⟩ => do
    function ⟨id, source, line, last, nup, npar, va, max, code, ks, children, lines, locals, names⟩
    verifyAll children

def verifyAll : List Prototype → Except Defect Unit
  | [] => pure ()
  | p :: ps => do
    verify p
    verifyAll ps

end

end LuaMachine.Verifier
