import LuaMachine.Instruction

/-!
Function prototypes: the immutable result of compiling one function, nested ones included.
-/

namespace LuaMachine

inductive Constant
  | nil
  | bool (b : Bool)
  /-- A number by its bits, so that numbers that are not equal to themselves stay apart. -/
  | numeral (bits : UInt64)
  | str (s : String)
  deriving DecidableEq, Inhabited

def Constant.number (n : Float) : Constant := .numeral n.toBits

/-- The stretch of code in which a local variable is live. -/
structure LocalVariable where
  name : String
  startPc : UInt32
  endPc : UInt32
  deriving DecidableEq, Inhabited

structure Prototype where
  /-- Identity under which compiled code is kept; no two prototypes of a program share one. -/
  id : Nat
  source : String
  lineDefined : UInt32
  lastLineDefined : UInt32
  upvalueCount : UInt8
  paramCount : UInt8
  /-- Bit 1: takes surplus arguments. Bit 2: wants them in an `arg` table too. -/
  varargFlags : UInt8
  maxStack : UInt8
  code : Array UInt32
  constants : Array Constant
  children : List Prototype
  /-- The line of every word, or nothing when the debug information was stripped. -/
  lines : Array UInt32
  locals : List LocalVariable
  upvalueNames : List String
  deriving Inhabited

namespace Prototype

/-- A function without code, with the least register window. -/
def empty (source : String) : Prototype where
  id := 0
  source := source
  lineDefined := 0
  lastLineDefined := 0
  upvalueCount := 0
  paramCount := 0
  varargFlags := 0
  maxStack := 2
  code := #[]
  constants := #[]
  children := []
  lines := #[]
  locals := []
  upvalueNames := []

def isVararg (p : Prototype) : Bool := p.varargFlags.toNat / 2 % 2 == 1

/-- Whether the function asks for its surplus arguments in a table. -/
def needsArg (p : Prototype) : Bool := p.varargFlags.toNat / 4 % 2 == 1

def instruction? (p : Prototype) (pc : Nat) : Option Instruction :=
  p.code[pc]?.map Instruction.mk

/-- The line of the word at `pc`, if lines were kept. -/
def line? (p : Prototype) (pc : Nat) : Option UInt32 := p.lines[pc]?

/-- How an identity is written in messages. -/
def showId (id : Nat) : String := "proto#" ++ toString id

mutual

/-- Gives a tree fresh identities from `next` on, a prototype before its children. Returns the
first identity left. -/
def identify (next : Nat) : Prototype → Prototype × Nat
  | ⟨_, source, line, last, nup, npar, va, max, code, ks, children, lines, locals, names⟩ =>
    let (children, after) := identifyAll (next + 1) children
    (⟨next, source, line, last, nup, npar, va, max, code, ks, children, lines, locals, names⟩,
      after)

def identifyAll (next : Nat) : List Prototype → List Prototype × Nat
  | [] => ([], next)
  | p :: ps =>
    let (p, next) := identify next p
    let (ps, next) := identifyAll next ps
    (p :: ps, next)

end

mutual

/-- The identities of a tree, a prototype before its children. -/
def ids : Prototype → List Nat
  | ⟨id, _, _, _, _, _, _, _, _, _, children, _, _, _⟩ => id :: idsAll children

def idsAll : List Prototype → List Nat
  | [] => []
  | p :: ps => ids p ++ idsAll ps

end

/-- The prototype reached by following child indices. -/
def descend? : Prototype → List Nat → Option Prototype
  | p, [] => some p
  | p, i :: path => p.children[i]?.bind (descend? · path)

end Prototype

end LuaMachine
