import LuaMachine.Lowering
import LuaMachine.Options

/-!
Native code as a graph of blocks, one for each word of the code. A block calls a helper, which runs
the operation that the code has there, and goes on by the status that the helper reports.
-/

namespace LuaMachine

/-- The functions that native code calls, one for each kind of operation. -/
inductive Helper
  | move | loadK | loadBool | loadNil | getUpval | getGlobal | getTable
  | setGlobal | setUpval | setTable | newTable | self
  | arith (op : ArithOp) | unm | not | len | concat
  | eq | lt | le | test | testSet
  | call | tailCall | ret | forLoop | forPrep | tForLoop
  | setList | close | closure | vararg
  deriving DecidableEq, Repr

/-- A call of a helper: all helpers take three operands. -/
structure HelperCall where
  helper : Helper
  a : Nat
  b : Nat
  c : Nat
  deriving DecidableEq, Repr

/-- The call that an operation is compiled to. Jumps are compiled to branches. -/
def Operation.helperCall? : Operation → Option HelperCall
  | move a b => some ⟨.move, a, b, 0⟩
  | loadK a k => some ⟨.loadK, a, k, 0⟩
  | loadBool a b _ => some ⟨.loadBool, a, b, 0⟩
  | loadNil a b => some ⟨.loadNil, a, b, 0⟩
  | getUpval a b => some ⟨.getUpval, a, b, 0⟩
  | getGlobal a k => some ⟨.getGlobal, a, k, 0⟩
  | getTable a b c => some ⟨.getTable, a, b, c⟩
  | setGlobal a k => some ⟨.setGlobal, a, k, 0⟩
  | setUpval a b => some ⟨.setUpval, a, b, 0⟩
  | setTable a b c => some ⟨.setTable, a, b, c⟩
  | newTable a b c => some ⟨.newTable, a, b, c⟩
  | self a b c => some ⟨.self, a, b, c⟩
  | arith op a b c => some ⟨.arith op, a, b, c⟩
  | unm a b => some ⟨.unm, a, b, 0⟩
  | not a b => some ⟨.not, a, b, 0⟩
  | len a b => some ⟨.len, a, b, 0⟩
  | concat a b c => some ⟨.concat, a, b, c⟩
  | eq a b c => some ⟨.eq, a, b, c⟩
  | lt a b c => some ⟨.lt, a, b, c⟩
  | le a b c => some ⟨.le, a, b, c⟩
  | test a c => some ⟨.test, a, 0, c⟩
  | testSet a b c => some ⟨.testSet, a, b, c⟩
  | call a b c => some ⟨.call, a, b, c⟩
  | tailCall a b => some ⟨.tailCall, a, b, 0⟩
  | ret a b => some ⟨.ret, a, b, 0⟩
  | forLoop a _ => some ⟨.forLoop, a, 0, 0⟩
  | forPrep a _ => some ⟨.forPrep, a, 0, 0⟩
  | tForLoop a c => some ⟨.tForLoop, a, 0, c⟩
  | setList a b batch => some ⟨.setList, a, b, batch⟩
  | close a => some ⟨.close, a, 0, 0⟩
  | closure a child _ => some ⟨.closure, a, child, 0⟩
  | vararg a b => some ⟨.vararg, a, b, 0⟩
  | jmp _ | data => none

/-- How a helper says that control goes on. -/
inductive Status
  | next
  /-- A test skips the next instruction, or a loop goes round. -/
  | taken
  /-- The frame on top is another one now. -/
  | frame
  deriving DecidableEq, Repr

/-- Where control goes at the end of a block. -/
inductive Exit
  | block (pc : Nat)
  /-- Back to whoever runs frames. -/
  | leave
  /-- Out of the code. -/
  | off
  deriving DecidableEq, Repr

inductive Block
  | goto (exit : Exit)
  /-- A call of a helper, and where each status leads. -/
  | run (call : HelperCall) (next taken frame : Exit)
  deriving DecidableEq, Repr

def Block.exit : Block → Status → Exit
  | goto e, _ => e
  | run _ next _ _, .next => next
  | run _ _ taken _, .taken => taken
  | run _ _ _ frame, .frame => frame

namespace Lowered

variable (l : Lowered)

def exitTo (pc : Nat) : Exit := if pc < l.operations.size then .block pc else .off

/-- The block for the operation at `pc`. -/
def block (pc : Nat) (op : Operation) : Block :=
  let next := ((l.fallthrough pc).map l.exitTo).getD .off
  match op.helperCall? with
  | none =>
    match op with
    | .jmp target => .goto (l.exitTo target)
    | _ => .goto .off
  | some call =>
    match op with
    | .loadBool _ _ true => .run call (l.exitTo (pc + 2)) (l.exitTo (pc + 2)) (l.exitTo (pc + 2))
    | .forPrep _ target => .run call (l.exitTo target) (l.exitTo target) (l.exitTo target)
    | .ret _ _ => .run call .leave .leave .leave
    | .forLoop _ target => .run call next (l.exitTo target) (l.exitTo target)
    | .call _ _ _ | .tailCall _ _ => .run call next next .leave
    | op =>
      if op.isTest then .run call next (l.exitTo (pc + 2)) (l.exitTo (pc + 2))
      else .run call next next next

end Lowered

structure NativeCode where
  blocks : Array Block

/-- The native code of a lowered prototype, unless that is too long. -/
def NativeCode.ofLowered (l : Lowered) : Except CompileError NativeCode :=
  if Limit.nativeOperations < l.operations.size then .error (.tooLong l.operations.size)
  else .ok ⟨l.operations.mapIdx l.block⟩

end LuaMachine
