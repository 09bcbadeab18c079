import LuaMachine.Coroutines
import LuaMachine.HostCall
import LuaMachine.Metamethod

/-!
The basic functions.
-/

namespace LuaMachine

/-- The text of a value, by its `__tostring` handler if it has one. Whoever asks for it holds the
value at least. -/
def toStringValue (run : Run) (v : Value) (held : List Value := [v]) : Action Value := do
  let handler ← view fun m =>
    ((m.metatable? v).map fun mt => (m.heap.table mt).getString "__tostring").getD .nil
  if handler.isNil then pure (.str v.display)
  else
    let vs ← callValueHolding run held handler [v]
    pure (vs.headD .nil)

namespace Library

variable (run : Run)

/-- `assert(v [, message])` -/
def assert : Action Nat := do
  let condition ← requireArg 1 "assert"
  if condition.isTruthy then pushValues (← args)
  else
    match ← arg 2 with
    | .nil => throw (.runtime (.str "assertion failed!") none)
    | message => throw (.runtime message none)

/-- `error(value [, level])`: a text gets the position of the given level in front. -/
def error : Action Nat := do
  let v ← arg 1
  let level := Number.toUnsigned 64 (← optionalNumber 2 "error" 1)
  match v with
  | .str s =>
    if level = 0 then throw (.runtime v none)
    else
      let position ← view (·.positionAt level)
      throw (.runtime (.str (position ++ s)) none)
  | v => throw (.runtime v none)

/-- `pcall(f, ...)` -/
def pcall : Action Nat := do
  let f ← requireArg 1 "pcall"
  let (ok, vs) ← protectedCall run f ((← args).drop 1)
  pushValues (.bool ok :: vs)

/-- `select(n, ...)` and `select('#', ...)` -/
def select : Action Nat := do
  let n ← argCount
  match ← arg 1 with
  | .str "#" => giveValue (.ofInt ((n : Int) - 1))
  | _ =>
    let i := Number.toInt64 (← requireNumber 1 "select")
    let i := if i < 0 then i + n else min i n
    if i < 1 then argumentError 1 "select" (.plain "index out of range")
    pushValues ((← args).drop i.toNat)

def type : Action Nat := do
  giveValue (.str (← requireArg 1 "type").typeName)

def tostring : Action Nat := do
  giveValue (← toStringValue run (← requireArg 1 "tostring"))

/-- `tonumber(v [, base])` -/
def tonumber : Action Nat := do
  let base := Number.toUnsigned 32 (← optionalNumber 2 "tonumber" 10)
  let v ← arg 1
  if base = 10 then giveValue ((v.toNumber?.map Value.number).getD .nil)
  else if base < 2 ∨ 36 < base then argumentError 2 "tonumber" (.plain "base out of range")
  else
    match v.toText? with
    | none => argumentError 1 "tonumber" (.expected "string" v.typeName)
    | some s => giveValue (((Number.integerInBase? base s).map Value.ofInt).getD .nil)

def rawequal : Action Nat := do
  let l ← requireArg 1 "rawequal"
  let r ← requireArg 2 "rawequal"
  giveValue (.bool (l.rawEquals r))

def rawget : Action Nat := do
  let t ← requireTable 1 "rawget"
  let key ← requireArg 2 "rawget"
  giveValue (← view fun m => (m.heap.table t).get key)

def rawset : Action Nat := do
  let t ← requireTable 1 "rawset"
  let key ← requireArg 2 "rawset"
  let v ← requireArg 3 "rawset"
  rawSet t key v
  giveValue (.table t)

def setMetatable (t : TableId) (metatable : Option TableId) : Action Unit :=
  modify (·.modifyHeap fun h => h.modifyTable t ({ · with metatable := metatable }))

def setmetatable : Action Nat := do
  let t ← requireTable 1 "setmetatable"
  let metatable ←
    match ← arg 2 with
    | .nil => pure none
    | .table mt => pure (some mt)
    | _ => argumentError 2 "setmetatable" (.plain "nil or table expected")
  let guard ← view fun m =>
    ((m.heap.table t).metatable.map fun old => (m.heap.table old).getString "__metatable").getD .nil
  if !guard.isNil then raise .protectedMetatable
  setMetatable t metatable
  giveValue (.table t)

def getmetatable : Action Nat := do
  let v ← requireArg 1 "getmetatable"
  giveValue (← view fun m =>
    match m.metatable? v with
    | none => .nil
    | some mt =>
      let guard := (m.heap.table mt).getString "__metatable"
      if guard.isNil then .table mt else guard)

def next : Action Nat := do
  let t ← requireTable 1 "next"
  let key ← arg 2
  match ← view fun m => (m.heap.table t).next key with
  | .ok (some (k, v)) => pushValues [k, v]
  | .ok none => giveValue .nil
  | .error _ => raise .nextKey

def pairs : Action Nat := do
  let t ← requireTable 1 "pairs"
  pushValues [.function (.host (.builtin .next)), .table t, .nil]

/-- One step of `ipairs`. It counts in 64 bits; going beyond is a crash. -/
def ipairsStep : Action Nat := do
  let t ← requireTable 1 "ipairs"
  let i := Number.toInt64 (← requireNumber 2 "ipairs") + 1
  if 9223372036854775808 ≤ i then throw .crash
  else
    match ← view fun m => (m.heap.table t).getInt i with
    | .nil => pure 0
    | v => pushValues [.ofInt i, v]

def ipairs : Action Nat := do
  let t ← requireTable 1 "ipairs"
  pushValues [.function (.host (.builtin .ipairsStep)), .table t, .ofNat 0]

/-- The most values `unpack` gives: the limit of the stack, read as a signed 64-bit word. -/
def unpackLimit (o : Options) : Int := (o.maxStack : Int).bmod 18446744073709551616

/-- `unpack(t [, i [, j]])` -/
def unpack : Action Nat := do
  let t ← requireTable 1 "unpack"
  let i := Number.toInt64 (← optionalNumber 2 "unpack" 1)
  let j ←
    if (← arg 3).isNil then view fun m => ((m.heap.table t).border : Int)
    else Number.toInt64 <$> requireNumber 3 "unpack"
  if j < i then pure 0
  else if 9223372036854775808 ≤ j - i then throw .crash
  else if (← view (unpackLimit ·.options)) ≤ j - i then raise .unpackSize
  else
    let vs ← view fun m =>
      let t := m.heap.table t
      (List.range (j - i + 1).toNat).map fun (k : Nat) => t.getInt (i + k)
    pushValues vs

/-- The texts `print` writes, which holds all its arguments meanwhile. -/
def printTexts (held : List Value) : List Value → Action (List String)
  | [] => pure []
  | v :: vs => do
    match ← toStringValue run v held with
    | .str s =>
      let rest ← printTexts held vs
      pure (s :: rest)
    | _ => raise .printText

def print : Action Nat := do
  let vs ← args
  let texts ← printTexts run vs vs
  LuaMachine.print ("\t".intercalate texts ++ "\n")
  pure 0

end Library

end LuaMachine
