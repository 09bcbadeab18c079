import LuaMachine.Number.Decimal
import LuaMachine.Number.Numeral
import LuaMachine.Prototype
import LuaMachine.Text.Quoted

/-!
Values. Tables, functions with captured state and coroutines live in a heap and are named by their
places in it, so that equality of names is identity.
-/

namespace LuaMachine

structure TableId where
  index : Nat
  deriving DecidableEq, Hashable, Repr

structure ClosureId where
  index : Nat
  deriving DecidableEq, Hashable, Repr

structure HostClosureId where
  index : Nat
  deriving DecidableEq, Hashable, Repr

structure CoroutineId where
  index : Nat
  deriving DecidableEq, Hashable, Repr

/-- The functions of the standard libraries. -/
inductive Builtin
  | assert | error | pcall | select | type | tostring | tonumber
  | rawequal | rawget | rawset | setmetatable | getmetatable
  | next | pairs | ipairs | ipairsStep | unpack | print
  | create | resume | yield | status | running | wrap | wrapped | isyieldable
  deriving DecidableEq, Hashable, Repr

/-- A function that is not bytecode: one of the libraries, or one the embedding program provides
under a name. -/
inductive HostFunction
  | builtin (f : Builtin)
  | embedded (name : String)
  deriving DecidableEq, Hashable, Repr

inductive Function
  | lua (c : ClosureId)
  | host (f : HostFunction)
  | hostClosure (c : HostClosureId)
  deriving DecidableEq, Hashable, Repr

inductive Value
  | nil
  | bool (b : Bool)
  | number (n : Float)
  | str (s : String)
  | table (t : TableId)
  | function (f : Function)
  | thread (t : CoroutineId)
  deriving Inhabited

/-- The types of values. -/
inductive ValueType
  | nil | boolean | number | string | table | function | thread
  deriving DecidableEq, Repr

def ValueType.name : ValueType → String
  | nil => "nil" | boolean => "boolean" | number => "number" | string => "string"
  | table => "table" | function => "function" | thread => "thread"

namespace Value

def ofNat (n : Nat) : Value := .number (.ofNat n)

def ofInt (n : Int) : Value := .number (.ofInt n)

def ofConstant : Constant → Value
  | .nil => .nil
  | .bool b => .bool b
  | .numeral bits => .number (.ofBits bits)
  | .str s => .str s

def type : Value → ValueType
  | nil => .nil
  | bool _ => .boolean
  | number _ => .number
  | str _ => .string
  | table _ => .table
  | function _ => .function
  | thread _ => .thread

def typeName (v : Value) : String := v.type.name

def isNil : Value → Bool
  | nil => true
  | _ => false

/-- Everything but `nil` and `false` counts as true. -/
def isTruthy : Value → Bool
  | nil | bool false => false
  | _ => true

def isFunction : Value → Bool
  | function _ => true
  | _ => false

/-- The number a value is converted to in arithmetic: itself, or what its text denotes. -/
def toNumber? : Value → Option Float
  | number n => some n
  | str s => Number.ofString? s
  | _ => none

/-- The text a value is converted to in concatenation. -/
def toText? : Value → Option String
  | str s => some s
  | number n => some (Number.format n)
  | _ => none

/-- Equality without metamethods. NaN equals nothing, and the two zeros are equal. -/
def rawEquals : Value → Value → Bool
  | nil, nil => true
  | bool a, bool b => a == b
  | number a, number b => a == b
  | str a, str b => a == b
  | table a, table b => a == b
  | function a, function b => a == b
  | thread a, thread b => a == b
  | _, _ => false

def closure? : Value → Option ClosureId
  | function (.lua c) => some c
  | _ => none

/-- The address shown for a value that is an object of the heap. -/
def address (kind index : Nat) : String :=
  "0x" ++ String.ofList (Nat.toDigits 16 (16 * (4 * index + kind) + 4096))

def hostAddress : HostFunction → String
  | .builtin f => address 3 f.ctorIdx
  | .embedded name => address 3 (256 + (hash name).toNat % 65536)

/-- The text of a value, metamethods apart. -/
def display : Value → String
  | nil => "nil"
  | bool true => "true"
  | bool false => "false"
  | number n => Number.format n
  | str s => s
  | table t => "table: " ++ address 0 t.index
  | function (.lua c) => "function: " ++ address 1 c.index
  | function (.hostClosure c) => "function: " ++ address 2 c.index
  | function (.host f) => "function: builtin: " ++ hostAddress f
  | thread t => "thread: " ++ address 3 (65792 + t.index)

/-- The text of a value for a programmer: strings stand in quotes. -/
def inspect : Value → String
  | str s => Text.quote s
  | v => v.display

/-- The text of an error value in messages. -/
def errorText : Value → String
  | str s => s
  | number n => Number.format n
  | nil => "nil"
  | v => "(error object is a " ++ v.typeName ++ " value)"

end Value

end LuaMachine
