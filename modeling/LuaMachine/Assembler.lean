import LuaMachine.Prototype

/-!
Assembling a prototype word by word. The constant pool holds every constant once; each word gets
the line that is current when it is emitted.
-/

namespace LuaMachine

structure Assembler where
  proto : Prototype
  line : UInt32

namespace Assembler

/-- A function defined on line 1. -/
def function (source : String) : Assembler :=
  ⟨{ Prototype.empty source with lineDefined := 1, lastLineDefined := 1 }, 1⟩

/-- A main chunk: it has no line of its own and takes any arguments. -/
def mainChunk (source : String) : Assembler :=
  ⟨{ Prototype.empty source with varargFlags := 2 }, 1⟩

variable (s : Assembler)

/-- Sets the number of parameters and widens the window to hold them. -/
def params (n : UInt8) : Assembler :=
  { s with proto := { s.proto with
      paramCount := n
      maxStack := if s.proto.maxStack < n then n else s.proto.maxStack } }

def vararg (flags : UInt8) : Assembler :=
  { s with proto := { s.proto with varargFlags := flags } }

def maxStack (n : UInt8) : Assembler :=
  { s with proto := { s.proto with maxStack := n } }

def upvalues (n : UInt8) : Assembler :=
  { s with proto := { s.proto with upvalueCount := n } }

/-- Sets the lines on which the function starts and ends. -/
def extent (defined last : UInt32) : Assembler :=
  { s with proto := { s.proto with lineDefined := defined, lastLineDefined := last } }

/-- Sets the line of the words that follow. -/
def atLine (n : UInt32) : Assembler := { s with line := n }

def localVariable (name : String) (startPc endPc : UInt32) : Assembler :=
  { s with proto := { s.proto with locals := s.proto.locals ++ [⟨name, startPc, endPc⟩] } }

/-- An index as it is handed out: a 32-bit word. -/
def index (i : Nat) : Nat := i % 4294967296

/-- The index of a constant in the pool, where it is added if it is new. The two zeros are two
constants. -/
def constant (k : Constant) : Nat × Assembler :=
  match s.proto.constants.findIdx? (· == k) with
  | some i => (index i, s)
  | none =>
    (index s.proto.constants.size,
      { s with proto := { s.proto with constants := s.proto.constants.push k } })

/-- The RK operand for a constant. -/
def rk (k : Constant) : Nat × Assembler :=
  let (i, s) := s.constant k
  (Instruction.ofConstant i, s)

/-- Adds a nested prototype and gives its index. -/
def child (p : Prototype) : Nat × Assembler :=
  (index s.proto.children.length,
    { s with proto := { s.proto with children := s.proto.children ++ [p] } })

/-- The place of the next word. -/
def pc : Nat := s.proto.code.size

/-- Appends a word and gives its place. -/
def emit (i : Instruction) : Nat × Assembler :=
  (s.pc, { s with proto := { s.proto with
    code := s.proto.code.push i.word
    lines := s.proto.lines.push s.line } })

/-- Emits a jump whose target is set later. -/
def jump : Nat × Assembler := s.emit (.asbx .jmp 0 0)

/-- Points the jump at `pc` to `target`. A word without a valid opcode is left alone. -/
def patch (pc target : Nat) : Assembler :=
  match s.proto.instruction? pc with
  | none => s
  | some i =>
    match i.opcode? with
    | none => s
    | some op =>
      let word := (Instruction.asbx op i.a ((target : Int) - (pc + 1))).word
      { s with proto := { s.proto with code := s.proto.code.setIfInBounds pc word } }

end Assembler

end LuaMachine
