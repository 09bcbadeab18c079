/-!
Limits of a machine, and when it compiles prototypes.
-/

namespace LuaMachine

inductive CompileMode
  /-- Always interpret. -/
  | off
  /-- Compile on the first call, and interpret what cannot be compiled. -/
  | auto
  /-- Compile on the first call, and fail where that is impossible. -/
  | strict
  deriving DecidableEq, Repr

namespace CompileMode

def name : CompileMode → String
  | off => "Off" | auto => "Auto" | strict => "Strict"

/-- Reads a mode, upper and lower case alike; the error is a message. -/
def ofString (s : String) : Except String CompileMode :=
  let s := s.map Char.toLower
  if s == "off" || s == "0" || s == "false" then .ok off
  else if s == "auto" || s == "on" || s == "1" || s == "true" then .ok auto
  else if s == "strict" then .ok strict
  else .error ("unknown jit mode '" ++ s ++ "'")

end CompileMode

structure Options where
  /-- The most slots a register stack may have. -/
  maxStack : Nat := 1000000
  /-- The most frames a coroutine may have. -/
  maxDepth : Nat := 20000
  /-- The most nested calls from native code, resumptions included. -/
  maxNativeCalls : Nat := 200
  mode : CompileMode := .auto
  deriving DecidableEq, Repr

namespace Limit

/-- Slots kept free above a frame. -/
def extraStack : Nat := 5

/-- Slots a host function may count on. -/
def minStack : Nat := 20

/-- Slots of a new stack. -/
def basicStack : Nat := 2 * minStack

/-- Steps in a chain of metamethods. -/
def metaSteps : Nat := 100

/-- List items stored by one `SETLIST`. -/
def itemsPerBatch : Nat := 50

/-- Operations the native backend takes in one prototype. -/
def nativeOperations : Nat := 8192

end Limit

end LuaMachine
