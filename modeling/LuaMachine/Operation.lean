import LuaMachine.Prototype

/-!
Operations with their operands decoded and their jump targets resolved.
-/

namespace LuaMachine

inductive ArithOp
  | add | sub | mul | div | mod | pow
  deriving DecidableEq, Repr

def ArithOp.name : ArithOp → String
  | add => "Add" | sub => "Sub" | mul => "Mul" | div => "Div" | mod => "Mod" | pow => "Pow"

/-- How a new closure obtains one of its upvalues: from a register of the running function, or
from one of that function's own upvalues. -/
inductive Capture
  | register (r : Nat)
  | upvalue (i : Nat)
  deriving DecidableEq, Repr

/-- A capture word: `MOVE` names a register in `B`, anything else an upvalue. -/
def Capture.ofWord (w : UInt32) : Capture :=
  let i : Instruction := ⟨w⟩
  match i.opcode? with
  | some .move => .register i.b
  | _ => .upvalue i.b

inductive Operation
  | move (a b : Nat)
  | loadK (a k : Nat)
  | loadBool (a b : Nat) (skip : Bool)
  | loadNil (a b : Nat)
  | getUpval (a b : Nat)
  | getGlobal (a k : Nat)
  | getTable (a b c : Nat)
  | setGlobal (a k : Nat)
  | setUpval (a b : Nat)
  | setTable (a b c : Nat)
  | newTable (a b c : Nat)
  | self (a b c : Nat)
  | arith (op : ArithOp) (a b c : Nat)
  | unm (a b : Nat)
  | not (a b : Nat)
  | len (a b : Nat)
  | concat (a b c : Nat)
  | jmp (target : Nat)
  | eq (a b c : Nat)
  | lt (a b c : Nat)
  | le (a b c : Nat)
  | test (a c : Nat)
  | testSet (a b c : Nat)
  | call (a b c : Nat)
  | tailCall (a b : Nat)
  | ret (a b : Nat)
  | forLoop (a target : Nat)
  | forPrep (a target : Nat)
  | tForLoop (a c : Nat)
  | setList (a b batch : Nat)
  | close (a : Nat)
  | closure (a child : Nat) (captures : List Capture)
  | vararg (a b : Nat)
  /-- An operand word of the instruction before it; never run. -/
  | data
  deriving DecidableEq, Repr, Inhabited

namespace Operation

/-- Whether the operation conditionally skips the instruction after it. -/
def isTest : Operation → Bool
  | eq .. | lt .. | le .. | test .. | testSet .. | tForLoop .. => true
  | _ => false

/-- Where a jump from `pc` leads. Addresses are 64-bit words, so a jump to before the start of
the code leads far past its end. -/
def jumpTarget (pc : Nat) (offset : Int) : Nat :=
  match (pc : Int) + 1 + offset with
  | .ofNat t => t
  | .negSucc n => 18446744073709551615 - n

/-- The operation an instruction stands for, given what its operand words say. Interpreting and
lowering each decode instructions on their own, in the same way; this is the table of both. -/
def ofInstruction (i : Instruction) (op : Opcode) (pc batch : Nat) (captures : List Capture) :
    Operation :=
  match op with
  | .move => move i.a i.b
  | .loadK => loadK i.a i.bx
  | .loadBool => loadBool i.a i.b (i.c != 0)
  | .loadNil => loadNil i.a i.b
  | .getUpval => getUpval i.a i.b
  | .getGlobal => getGlobal i.a i.bx
  | .getTable => getTable i.a i.b i.c
  | .setGlobal => setGlobal i.a i.bx
  | .setUpval => setUpval i.a i.b
  | .setTable => setTable i.a i.b i.c
  | .newTable => newTable i.a i.b i.c
  | .self => self i.a i.b i.c
  | .add => arith .add i.a i.b i.c
  | .sub => arith .sub i.a i.b i.c
  | .mul => arith .mul i.a i.b i.c
  | .div => arith .div i.a i.b i.c
  | .mod => arith .mod i.a i.b i.c
  | .pow => arith .pow i.a i.b i.c
  | .unm => unm i.a i.b
  | .not => not i.a i.b
  | .len => len i.a i.b
  | .concat => concat i.a i.b i.c
  | .jmp => jmp (jumpTarget pc i.sbx)
  | .eq => eq i.a i.b i.c
  | .lt => lt i.a i.b i.c
  | .le => le i.a i.b i.c
  | .test => test i.a i.c
  | .testSet => testSet i.a i.b i.c
  | .call => call i.a i.b i.c
  | .tailCall => tailCall i.a i.b
  | .ret => ret i.a i.b
  | .forLoop => forLoop i.a (jumpTarget pc i.sbx)
  | .forPrep => forPrep i.a (jumpTarget pc i.sbx)
  | .tForLoop => tForLoop i.a i.c
  | .setList => setList i.a i.b (if i.c = 0 then batch else i.c)
  | .close => close i.a
  | .closure => closure i.a i.bx captures
  | .vararg => vararg i.a i.b

end Operation

end LuaMachine
