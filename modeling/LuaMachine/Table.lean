import LuaMachine.Value
import Std.Data.HashMap

/-!
Tables: an array part for the keys `1 .. n`, and nodes in the order in which their keys came. A key
that loses its value keeps its node, so that a traversal may clear the fields it visits; dead nodes
are dropped only when a new key comes in.
-/

namespace LuaMachine

/-- A key up to raw equality. Positive integers are positions, other numbers go by their bits. -/
inductive Key
  | bool (b : Bool)
  | position (i : Nat)
  | number (bits : UInt64)
  | str (s : String)
  | table (t : TableId)
  | function (f : Function)
  | thread (t : CoroutineId)
  deriving DecidableEq, Hashable

/-- What is wrong with a value as a key. -/
inductive KeyError
  | nilIndex
  | nanIndex
  deriving DecidableEq, Repr

def KeyError.message : KeyError → String
  | nilIndex => "table index is nil"
  | nanIndex => "table index is NaN"

/-- The key of a number that is not NaN. The two zeros are one key. -/
def Key.ofNumber (n : Float) : Key :=
  match Number.position? n with
  | some i => .position i
  | none => if n == 0 then .number 0 else .number n.toBits

/-- The key a value is, unless it is `nil` or NaN. -/
def Value.key : Value → Except KeyError Key
  | nil => .error .nilIndex
  | bool b => .ok (.bool b)
  | number n => if n.isNaN then .error .nanIndex else .ok (.ofNumber n)
  | str s => .ok (.str s)
  | table t => .ok (.table t)
  | function f => .ok (.function f)
  | thread t => .ok (.thread t)

structure Node where
  key : Value
  value : Value
  deriving Inhabited

structure Table where
  array : Array Value := #[]
  nodes : Array Node := #[]
  /-- Where the node of each key is. -/
  index : Std.HashMap Key Nat := ∅
  /-- How many nodes have lost their value. -/
  dead : Nat := 0
  metatable : Option TableId := none

namespace Table

def empty : Table := {}

instance : Inhabited Table := ⟨empty⟩

/-- Changes the array part. -/
@[inline]
def modifyArray (f : Array Value → Array Value) : Table → Table
  | ⟨array, nodes, index, dead, metatable⟩ => ⟨f array, nodes, index, dead, metatable⟩

/-- Changes the nodes and the count of dead ones. -/
@[inline]
def modifyNodes (f : Array Node → Array Node) (dead : Nat) : Table → Table
  | ⟨array, nodes, index, _, metatable⟩ => ⟨array, f nodes, index, dead, metatable⟩

variable (t : Table)

/-- The value of the node at a place. -/
def nodeValue (slot : Nat) : Value :=
  match t.nodes[slot]? with
  | some node => node.value
  | none => .nil

/-- The value at a key of the node part. -/
def getNode (k : Key) : Value :=
  match t.index[k]? with
  | some slot => t.nodeValue slot
  | none => .nil

/-- The value at a key. -/
def getKey (k : Key) : Value :=
  match k with
  | .position i =>
    match t.array[i - 1]? with
    | some v => v
    | none => t.getNode k
  | k => t.getNode k

/-- The value at a key, `nil` for what can be no key. -/
def get (key : Value) : Value :=
  match key.key with
  | .ok k => t.getKey k
  | .error _ => .nil

def getString (name : String) : Value := t.getKey (.str name)

/-- The value at an integer. -/
def getInt (i : Int) : Value :=
  if 1 ≤ i ∧ i.toNat ≤ t.array.size then (t.array[i.toNat - 1]?).getD .nil
  else t.get (.ofInt i)

/-- Gives the node at a place another value. -/
def setNode (slot : Nat) (v : Value) (dead : Nat) : Table :=
  t.modifyNodes (fun nodes => nodes.modify slot fun node => ⟨node.key, v⟩) dead

/-- Takes the value of a key's node away. -/
def kill (k : Key) : Table :=
  match t.index[k]? with
  | some slot =>
    if (t.nodeValue slot).isNil then t
    else t.setNode slot .nil (t.dead + 1)
  | none => t

/-- Moves the keys that follow the array part into it, as long as `fuel` lasts. -/
def migrate : Nat → Table → Table
  | 0, t => t
  | fuel + 1, t =>
    match t.index[Key.position (t.array.size + 1)]? with
    | none => t
    | some slot =>
      let v := t.nodeValue slot
      if v.isNil then t
      else migrate fuel ((t.setNode slot .nil (t.dead + 1)).modifyArray (·.push v))

/-- The places of the keys of a list of nodes. -/
def indexOf (nodes : List Node) (slot : Nat) (index : Std.HashMap Key Nat) : Std.HashMap Key Nat :=
  match nodes with
  | [] => index
  | node :: r =>
    match node.key.key with
    | .ok k => indexOf r (slot + 1) (index.insert k slot)
    | .error _ => indexOf r (slot + 1) index

/-- Drops the dead nodes. -/
def compact : Table :=
  let nodes := t.nodes.filter fun node => !node.value.isNil
  { t with nodes := nodes, index := indexOf nodes.toList 0 ∅, dead := 0 }

/-- Adds a node at the end. -/
def pushNode (k : Key) (key v : Value) : Table → Table
  | ⟨array, nodes, index, dead, metatable⟩ =>
    ⟨array, nodes.push ⟨key, v⟩, index.insert k nodes.size, dead, metatable⟩

/-- Adds a node for a new key, first dropping the dead nodes if they are at least half of all. -/
def insertNode (k : Key) (key v : Value) : Table :=
  if 0 < t.dead ∧ t.nodes.size ≤ t.dead * 2 then t.compact.pushNode k key v
  else t.pushNode k key v

/-- Sets a key in the node part. -/
def setInNodes (k : Key) (key v : Value) : Table :=
  match t.index[k]? with
  | some slot =>
    let dead :=
      match (t.nodeValue slot).isNil, v.isNil with
      | false, true => t.dead + 1
      | true, false => t.dead - 1
      | _, _ => t.dead
    t.setNode slot v dead
  | none => if v.isNil then t else t.insertNode k key v

/-- Sets a key. A value just behind the array part extends it. -/
def setKey (k : Key) (key v : Value) : Table :=
  match k with
  | .position i =>
    if i ≤ t.array.size then t.modifyArray (·.setIfInBounds (i - 1) v)
    else if i = t.array.size + 1 then
      let t := t.kill k
      if v.isNil then t
      else
        let t := t.modifyArray (·.push v)
        t.migrate t.nodes.size
    else t.setInNodes k key v
  | k => t.setInNodes k key v

/-- Sets the value at a key, or says why the key is none. -/
def set (key v : Value) : Except KeyError Table :=
  match key.key with
  | .ok k => .ok (t.setKey k key v)
  | .error e => .error e

/-- Sets the value at an integer. -/
def setInt (i : Int) (v : Value) : Table :=
  let key := Value.ofInt i
  match key.key with
  | .ok k => t.setKey k key v
  | .error _ => t

def setString (name : String) (v : Value) : Table := t.setKey (.str name) (.str name) v

/-- Finds a place between `i` and `j` after which the array part is empty. -/
def searchBorder (array : Array Value) : Nat → Nat → Nat → Nat
  | 0, i, _ => i
  | fuel + 1, i, j =>
    if j - i ≤ 1 then i
    else
      let m := (i + j) / 2
      if ((array[m - 1]?).getD .nil).isNil then searchBorder array fuel i m
      else searchBorder array fuel m j

/-- Counts on while the next integer has a value. -/
def probe : Nat → Nat → Nat
  | 0, j => j
  | fuel + 1, j => if (t.getInt (j + 1)).isNil then j else probe fuel (j + 1)

/-- A border: an integer with a value, or zero, whose successor has none. -/
def border : Nat :=
  let n := t.array.size
  if (t.array.back?.map Value.isNil).getD false then searchBorder t.array n 0 n
  else if t.nodes.size = t.dead then n
  else t.probe t.nodes.size n

def isEmpty : Bool := t.array.all Value.isNil && t.nodes.size == t.dead

/-- The first of `n` places from `i` on whose array entry has a value. -/
def findInArray (array : Array Value) : Nat → Nat → Option (Value × Value)
  | 0, _ => none
  | n + 1, i =>
    match array[i]? with
    | some v => if v.isNil then findInArray array n (i + 1) else some (.ofNat (i + 1), v)
    | none => none

/-- The first of `n` places from `slot` on whose node has a value. -/
def findInNodes (nodes : Array Node) : Nat → Nat → Option (Value × Value)
  | 0, _ => none
  | n + 1, slot =>
    match nodes[slot]? with
    | some node =>
      if node.value.isNil then findInNodes nodes n (slot + 1) else some (node.key, node.value)
    | none => none

/-- The first entry of the array part at or after a place. -/
def nextInArray (i : Nat) : Option (Value × Value) :=
  findInArray t.array (t.array.size - i) i

/-- The first living node at or after a place. -/
def nextInNodes (slot : Nat) : Option (Value × Value) :=
  findInNodes t.nodes (t.nodes.size - slot) slot

/-- The entry after a key, `nil` standing before the first. Fails when the key is not known. -/
def next (key : Value) : Except Unit (Option (Value × Value)) :=
  let fromNodes (k : Key) : Except Unit (Option (Value × Value)) :=
    match t.index[k]? with
    | some slot => .ok (t.nextInNodes (slot + 1))
    | none => .error ()
  let fromArray (i : Nat) : Option (Value × Value) :=
    match t.nextInArray i with
    | some entry => some entry
    | none => t.nextInNodes 0
  match key.key with
  | .error .nilIndex => .ok (fromArray 0)
  | .error .nanIndex => .error ()
  | .ok (.position i) =>
    if i ≤ t.array.size then .ok (fromArray i) else fromNodes (.position i)
  | .ok k => fromNodes k

/-- All entries in the order of a traversal. -/
def entries : List (Value × Value) :=
  let array := t.array.toList.mapIdx fun i v => (Value.ofNat (i + 1), v)
  let nodes := t.nodes.toList.map fun node => (node.key, node.value)
  (array ++ nodes).filter fun (_, v) => !v.isNil

end Table

end LuaMachine
