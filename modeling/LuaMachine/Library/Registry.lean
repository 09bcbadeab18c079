import LuaMachine.Library.Basic
import LuaMachine.Library.Threads

/-!
Library modules: named lists of entries to install in the globals.
-/

namespace LuaMachine

/-- What a library function does. -/
def Builtin.body : Builtin → HostBody
  | assert, _ => Library.assert
  | error, _ => Library.error
  | pcall, run => Library.pcall run
  | select, _ => Library.select
  | type, _ => Library.type
  | tostring, run => Library.tostring run
  | tonumber, _ => Library.tonumber
  | rawequal, _ => Library.rawequal
  | rawget, _ => Library.rawget
  | rawset, _ => Library.rawset
  | setmetatable, _ => Library.setmetatable
  | getmetatable, _ => Library.getmetatable
  | next, _ => Library.next
  | pairs, _ => Library.pairs
  | ipairs, _ => Library.ipairs
  | ipairsStep, _ => Library.ipairsStep
  | unpack, _ => Library.unpack
  | print, run => Library.print run
  | create, _ => Library.create
  | resume, run => Library.resume run
  | yield, _ => Library.yield
  | status, _ => Library.status
  | running, _ => Library.running
  | wrap, _ => Library.wrap
  | wrapped, run => Library.wrapped run
  | isyieldable, _ => Library.isyieldable

/-- The value of a global. -/
def getGlobal (name : String) : Action Value :=
  view fun m => (m.heap.table m.globals).getString name

def setGlobal (name : String) (v : Value) : Action Unit :=
  modify fun m =>
    let globals := m.globals
    m.modifyHeap fun h => h.modifyTable globals (·.setString name v)

namespace Library

inductive Entry
  | function (f : HostFunction)
  /-- A value that is made when the module is installed. -/
  | value (make : Action Value)

structure Module where
  name : String
  entries : List (String × Entry)

def Entry.make : Entry → Action Value
  | function f => pure (.function (.host f))
  | value make => make

/-- The module whose entries become globals themselves. -/
def globalModule : String := "_G"

def basic : Module where
  name := globalModule
  entries :=
    [("assert", .assert), ("error", .error), ("pcall", .pcall), ("select", .select),
      ("type", .type), ("tostring", .tostring), ("tonumber", .tonumber),
      ("rawequal", .rawequal), ("rawget", .rawget), ("rawset", .rawset),
      ("setmetatable", .setmetatable), ("getmetatable", .getmetatable), ("next", .next),
      ("pairs", .pairs), ("ipairs", .ipairs), ("unpack", .unpack), ("print", Builtin.print)].map
        (fun (name, f) => (name, Entry.function (.builtin f)))
      ++ [("_VERSION", .value (pure (.str "Lua 5.1")))]

def coroutine : Module where
  name := "coroutine"
  entries :=
    [("create", .create), ("resume", .resume), ("yield", .yield), ("status", .status),
      ("running", .running), ("wrap", .wrap), ("isyieldable", Builtin.isyieldable)].map
        fun (name, f) => (name, Entry.function (.builtin f))

/-- The libraries there are. -/
def standard : List Module := [basic, coroutine]

def find? (modules : List Module) (name : String) : Option Module :=
  modules.find? (·.name == name)

def installGlobals : List (String × Entry) → Action Unit
  | [] => pure ()
  | (name, e) :: r => do
    setGlobal name (← e.make)
    installGlobals r

def fillTable : List (String × Entry) → Table → Action Table
  | [], t => pure t
  | (name, e) :: r, t => do
    fillTable r (t.setString name (← e.make))

/-- Installs a module: as globals, or as one global table. -/
def Module.install (mod : Module) : Action Unit := do
  if mod.name = globalModule then installGlobals mod.entries
  else
    let t ← newTable (← fillTable mod.entries .empty)
    setGlobal mod.name t

def installAll : List Module → Action Unit
  | [] => pure ()
  | mod :: r => do
    mod.install
    installAll r

end Library

end LuaMachine
