/-!
The 38 operations of Lua 5.1 bytecode: their numbers, names and operand formats.
-/

namespace LuaMachine

inductive Opcode
  | move | loadK | loadBool | loadNil | getUpval | getGlobal | getTable
  | setGlobal | setUpval | setTable | newTable | self
  | add | sub | mul | div | mod | pow | unm | not | len | concat
  | jmp | eq | lt | le | test | testSet
  | call | tailCall | ret | forLoop | forPrep | tForLoop
  | setList | close | closure | vararg
  deriving DecidableEq, Repr

/-- How the bits above the opcode and `A` are read. -/
inductive OperandFormat
  | abc | abx | asbx
  deriving DecidableEq, Repr

namespace Opcode

/-- All opcodes, in the order of their numbers. -/
def all : Array Opcode :=
  #[.move, .loadK, .loadBool, .loadNil, .getUpval, .getGlobal, .getTable,
    .setGlobal, .setUpval, .setTable, .newTable, .self,
    .add, .sub, .mul, .div, .mod, .pow, .unm, .not, .len, .concat,
    .jmp, .eq, .lt, .le, .test, .testSet,
    .call, .tailCall, .ret, .forLoop, .forPrep, .tForLoop,
    .setList, .close, .closure, .vararg]

def ofNumber? (n : Nat) : Option Opcode := all[n]?

def number (op : Opcode) : Nat := op.ctorIdx

@[simp]
theorem ofNumber?_number (op : Opcode) : ofNumber? op.number = some op := by
  cases op <;> rfl

theorem number_lt (op : Opcode) : op.number < 38 := by
  cases op <;> decide

/-- The name in listings. -/
def name : Opcode → String
  | move => "MOVE" | loadK => "LOADK" | loadBool => "LOADBOOL" | loadNil => "LOADNIL"
  | getUpval => "GETUPVAL" | getGlobal => "GETGLOBAL" | getTable => "GETTABLE"
  | setGlobal => "SETGLOBAL" | setUpval => "SETUPVAL" | setTable => "SETTABLE"
  | newTable => "NEWTABLE" | self => "SELF"
  | add => "ADD" | sub => "SUB" | mul => "MUL" | div => "DIV" | mod => "MOD" | pow => "POW"
  | unm => "UNM" | not => "NOT" | len => "LEN" | concat => "CONCAT"
  | jmp => "JMP" | eq => "EQ" | lt => "LT" | le => "LE" | test => "TEST" | testSet => "TESTSET"
  | call => "CALL" | tailCall => "TAILCALL" | ret => "RETURN"
  | forLoop => "FORLOOP" | forPrep => "FORPREP" | tForLoop => "TFORLOOP"
  | setList => "SETLIST" | close => "CLOSE" | closure => "CLOSURE" | vararg => "VARARG"

def ofName? (s : String) : Option Opcode := all.find? fun op => op.name == s

def format : Opcode → OperandFormat
  | loadK | getGlobal | setGlobal | closure => .abx
  | jmp | forLoop | forPrep => .asbx
  | _ => .abc

/-- Whether the operation conditionally skips the instruction after it. -/
def isTest : Opcode → Bool
  | eq | lt | le | test | testSet | tForLoop => true
  | _ => false

end Opcode

end LuaMachine
