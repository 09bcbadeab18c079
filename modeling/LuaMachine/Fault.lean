import LuaMachine.Chunk.Reader
import LuaMachine.Heap
import LuaMachine.Verifier

/-!
What can go wrong, by cause, and the words for it.
-/

namespace LuaMachine

/-- What is wrong with bytecode or with the frames over it. -/
inductive Malformation
  | defect (d : Verifier.Defect)
  | chunk (f : Chunk.Flaw)
  | hostFrame
  | noFrame
  | noTailFrame
  | pcRange (pc : Nat)
  | invalidOpcode (number pc : Nat)
  | child (i pc : Nat)
  | missingCaptures (pc : Nat)
  | operandWord (pc : Nat)
  | notAnEntry (proto pc : Nat)
  | leftNativeCode (proto : Nat)
  | noClosure (pc : Nat)
  | nativeCrash (pc : Nat)
  deriving DecidableEq, Repr

def Malformation.message : Malformation → String
  | defect d => d.message
  | chunk f => f.message
  | hostFrame => "host frame on top of the execution loop"
  | noFrame => "no frame to execute"
  | noTailFrame => "tail call without a running frame"
  | pcRange pc => "pc " ++ toString pc ++ " out of range"
  | invalidOpcode n pc => "invalid opcode " ++ toString n ++ " at pc " ++ toString pc
  | child i pc => "prototype " ++ toString i ++ " out of range at pc " ++ toString pc
  | missingCaptures pc => "CLOSURE missing capture words at pc " ++ toString pc
  | operandWord pc => "operand word executed at pc " ++ toString pc
  | notAnEntry proto pc => Prototype.showId proto ++ " entered at pc " ++ toString pc
  | leftNativeCode proto => Prototype.showId proto ++ " left native code with status 3"
  | noClosure pc => "no closure at pc " ++ toString pc
  | nativeCrash pc => "panic in compiled code at pc " ++ toString pc

/-- What an operation does to an operand. -/
inductive Attempt
  | call | index | arithmetic | concatenate | length
  deriving DecidableEq, Repr

def Attempt.words : Attempt → String
  | call => "call" | index => "index" | arithmetic => "perform arithmetic on"
  | concatenate => "concatenate" | length => "get length of"

/-- What is wrong with an argument of a host function. -/
inductive ArgumentProblem
  | valueExpected
  | expected (what found : String)
  | plain (text : String)
  deriving DecidableEq, Repr

def ArgumentProblem.message : ArgumentProblem → String
  | valueExpected => "value expected"
  | expected what found => what ++ " expected, got " ++ found
  | plain text => text

/-- What a running program did wrong. -/
inductive Complaint
  | operand (attempt : Attempt) (type : ValueType)
  | comparison (left right : ValueType)
  | callChain
  | indexChain
  | assignChain
  | key (e : KeyError)
  | loopBound (what : String)
  | loopState
  | listTarget
  | yieldOutside
  | yieldAcross
  | coroutineBody
  | argument (number : Nat) (function : String) (problem : ArgumentProblem)
  | nextKey
  | protectedMetatable
  | unpackSize
  | printText
  | wrappedMissing
  | plain (text : String)
  deriving DecidableEq, Repr

def Complaint.message : Complaint → String
  | operand attempt t => "attempt to " ++ attempt.words ++ " a " ++ t.name ++ " value"
  | comparison l r =>
    if l = r then "attempt to compare two " ++ l.name ++ " values"
    else "attempt to compare " ++ l.name ++ " with " ++ r.name
  | callChain => "'__call' chain too long"
  | indexChain => "loop in gettable"
  | assignChain => "loop in settable"
  | key e => e.message
  | loopBound what => "'for' " ++ what ++ " must be a number"
  | loopState => "'for' loop state is not numeric"
  | listTarget => "SETLIST target is not a table"
  | yieldOutside => "attempt to yield from outside a coroutine"
  | yieldAcross => "attempt to yield across metamethod/C-call boundary"
  | coroutineBody => "Lua function expected"
  | argument n f problem =>
    "bad argument #" ++ toString n ++ " to '" ++ f ++ "' (" ++ problem.message ++ ")"
  | nextKey => "invalid key to 'next'"
  | protectedMetatable => "cannot change a protected metatable"
  | unpackSize => "too many results to unpack"
  | printText => "'tostring' must return a string to 'print'"
  | wrappedMissing => "wrapped coroutine is missing"
  | plain text => text

inductive Fault
  /-- An error of the program, with the value it raised. -/
  | runtime (value : Value) (traceback : Option String)
  /-- A limit was passed: of registers or frames, or of nested native calls. -/
  | stackOverflow (position : String) (native : Bool)
  | malformed (m : Malformation)
  /-- A prototype that must be compiled cannot be. -/
  | compile (e : CompileError)
  /-- Not an error: a coroutine is being suspended. -/
  | yield
  /-- An operand of unchecked code names something that does not exist, an integer is out of
  range, or an upvalue is needed while it is assigned to. -/
  | crash
  /-- The bound on the number of steps was reached. -/
  | outOfFuel

namespace Fault

def message : Fault → String
  | runtime v _ => v.errorText
  | stackOverflow position native =>
    position ++ (if native then "C stack overflow" else "stack overflow")
  | malformed m => "malformed bytecode: " ++ m.message
  | compile e => "compilation failed: " ++ e.message
  | yield => "attempt to yield from outside a coroutine"
  | crash => "operand out of range"
  | outOfFuel => "out of fuel"

/-- The value a protected call hands back. -/
def value : Fault → Value
  | runtime v _ => v
  | f => .str f.message

/-- Whether the machine cannot go on after this: no protected call sees it. -/
def isFatal : Fault → Bool
  | crash | outOfFuel => true
  | _ => false

end Fault

end LuaMachine
