import LuaMachine.ChunkName
import LuaMachine.Value

/-!
Listings of prototypes: a heading, the code word by word, constants, local variables and upvalues,
then the nested prototypes, each level two blanks further in.
-/

namespace LuaMachine.Listing

def padRight (width : Nat) (s : String) : String :=
  s ++ String.ofList (List.replicate (width - s.length) ' ')

def padLeft (width : Nat) (s : String) : String :=
  String.ofList (List.replicate (width - s.length) ' ') ++ s

def constant (k : Constant) : String := (Value.ofConstant k).inspect

/-- An operand that is a register or a constant. -/
def operand (x : Nat) : String :=
  if Instruction.isConstant x then "K" ++ toString (Instruction.constantIndex x)
  else "R" ++ toString x

/-- A mnemonic in its column and the operands after it. -/
def row (mnemonic : String) (operands : List String) : String :=
  " ".intercalate (padRight 9 mnemonic :: operands)

/-- Operands as they stand in the word. -/
def plainRow (i : Instruction) (op : Opcode) : String :=
  row op.name <|
    match op.format with
    | .abc => [toString i.a, toString i.b, toString i.c]
    | .abx => [toString i.a, toString i.bx]
    | .asbx => [toString i.a, toString i.sbx]

section

variable (p : Prototype)

/-- An instruction, with what it refers to after a tab. Places count from 1. -/
def instruction (pc : Nat) (i : Instruction) (op : Opcode) : String :=
  match op with
  | .loadK | .getGlobal | .setGlobal =>
    plainRow i op ++ "\t; " ++ ((p.constants[i.bx]?).map constant).getD ""
  | .closure => plainRow i op ++ "\t; function <PROTO[" ++ toString i.bx ++ "]>"
  | .jmp | .forLoop | .forPrep => plainRow i op ++ "\t; to " ++ toString (pc + 2 + i.sbx)
  | .getTable | .self => row op.name [toString i.a, toString i.b, operand i.c]
  | .setTable | .add | .sub | .mul | .div | .mod | .pow | .eq | .lt | .le =>
    row op.name [toString i.a, operand i.b, operand i.c]
  | _ => plainRow i op

/-- How many operand words follow an instruction. -/
def operandWords (i : Instruction) : Opcode → Nat
  | .setList => if i.c = 0 then 1 else 0
  | .closure => ((p.children[i.bx]?).map (·.upvalueCount.toNat)).getD 0
  | _ => 0

/-- The text of a word and the number of operand words still to come, `pending` of them before. -/
def word (pc pending : Nat) (w : UInt32) : String × Nat :=
  match pending with
  | n + 1 => (row "(data)" [toString w.toNat], n)
  | 0 =>
    let i : Instruction := ⟨w⟩
    match i.opcode? with
    | some op => (instruction p pc i op, operandWords p i op)
    | none => (row "(invalid)" [toString w.toNat], 0)

/-- The source line of a word in its column. -/
def sourceLine (pc : Nat) : String :=
  padRight 6 ("[" ++ ((p.line? pc).map fun l => toString l.toNat).getD "-" ++ "]")

/-- One line for every word. -/
def code (pc pending : Nat) : List UInt32 → List String
  | [] => []
  | w :: r =>
    let (text, pending) := word p pc pending w
    " ".intercalate [padLeft 4 (toString (pc + 1)), sourceLine p pc, text]
      :: code (pc + 1) pending r

def heading (name : String) : List String :=
  ["=== " ++ name ++ " <" ++ ChunkName.render p.source ++ ":" ++ toString p.lineDefined.toNat
      ++ "," ++ toString p.lastLineDefined.toNat ++ "> (" ++ Prototype.showId p.id ++ ") ===",
    "params: " ++ toString p.paramCount.toNat ++ ", vararg: " ++ toString p.varargFlags.toNat
      ++ ", max_stack: " ++ toString p.maxStack.toNat
      ++ ", upvalues: " ++ toString p.upvalueCount.toNat]

/-- A stretch of code, its places counted from 1. -/
def localVariable (v : LocalVariable) : String :=
  v.name ++ " [" ++ toString (v.startPc + 1).toNat ++ ", " ++ toString (v.endPc + 1).toNat ++ ")"

end

/-- Lines, each after an indent. -/
def indented (indent : String) (lines : List String) : List String := lines.map (indent ++ ·)

/-- A numbered section after an empty line; nothing if there are no items. -/
def items (indent title : String) (texts : List String) : List String :=
  if texts.isEmpty then []
  else
    let rows := texts.zipIdx.map fun (text, i) => "  " ++ toString i ++ " = " ++ text
    "" :: indented indent ((title ++ " (" ++ toString texts.length ++ "):") :: rows)

/-- The lines of a prototype without the nested ones. -/
def body (indent name : String) (p : Prototype) : List String :=
  indented indent (heading p name) ++ [""]
    ++ indented indent (code p 0 0 p.code.toList)
    ++ items indent "constants" (p.constants.toList.map constant)
    ++ items indent "locals" (p.locals.map localVariable)
    ++ items indent "upvalues" p.upvalueNames

mutual

/-- The lines of a prototype tree. -/
def lines (indent name : String) : Prototype → List String
  | ⟨id, source, line, last, nup, npar, va, max, words, ks, children, numbers, locals, names⟩ =>
    body indent name
        ⟨id, source, line, last, nup, npar, va, max, words, ks, children, numbers, locals, names⟩
      ++ (if children.isEmpty then [] else [""])
      ++ linesAll (indent ++ "  ") 0 children

def linesAll (indent : String) (i : Nat) : List Prototype → List String
  | [] => []
  | p :: ps =>
    lines indent ("function <PROTO[" ++ toString i ++ "]>") p ++ linesAll indent (i + 1) ps

end

/-- The listing of a main chunk. -/
def render (p : Prototype) : String :=
  String.join ((lines "" "main" p).map (· ++ "\n"))

end LuaMachine.Listing
