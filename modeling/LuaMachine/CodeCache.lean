import LuaMachine.NativeCode
import Std.Data.HashMap

/-!
Compiled prototypes, kept by identity. A prototype is compiled once, after the prototypes nested in
it; what came out, a failure too, is the answer to every later request.
-/

namespace LuaMachine

inductive Backend
  | threaded
  | native
  deriving DecidableEq, Repr

def Backend.name : Backend → String
  | threaded => "Threaded" | native => "Native"

/-- The executable form of one prototype. -/
structure CompiledUnit where
  protoId : Nat
  lowered : Lowered
  native : Option NativeCode

namespace CompiledUnit

def backend (u : CompiledUnit) : Backend := if u.native.isSome then .native else .threaded

/-- A one-line description. -/
def describe (u : CompiledUnit) : String :=
  "CompiledUnit \x7b proto: ProtoId(" ++ toString u.protoId ++ "), ops: "
    ++ toString u.lowered.operations.size ++ ", backend: " ++ u.backend.name ++ " \x7d"

end CompiledUnit

structure CodeCache where
  backend : Backend
  units : Std.HashMap Nat (Except CompileError CompiledUnit) := ∅
  compiled : Nat := 0
  failed : Nat := 0
  /-- Requests that were answered from the cache. -/
  hits : Nat := 0
  nativeUnits : Nat := 0

namespace CodeCache

instance : Inhabited CodeCache := ⟨{ backend := .threaded }⟩

/-- What compiling a prototype gave, if it was ever asked for. -/
def lookup (c : CodeCache) (id : Nat) : Option (Except CompileError CompiledUnit) := c.units[id]?

/-- Keeps the outcome for a prototype and counts it. -/
def record (c : CodeCache) (id : Nat) (r : Except CompileError CompiledUnit) : CodeCache :=
  let c := { c with units := c.units.insert id r }
  match r with
  | .ok _ => { c with compiled := c.compiled + 1 }
  | .error _ => { c with failed := c.failed + 1 }

/-- Makes a unit of a prototype whose children are compiled. -/
def assemble (c : CodeCache) (id : Nat) (l : Lowered) :
    Except CompileError CompiledUnit × CodeCache :=
  match c.backend with
  | .threaded => (.ok ⟨id, l, none⟩, c)
  | .native =>
    match NativeCode.ofLowered l with
    | .ok code => (.ok ⟨id, l, some code⟩, { c with nativeUnits := c.nativeUnits + 1 })
    | .error e => (.error e, c)

mutual

/-- The unit of a prototype, compiled now if this is the first request for it. -/
def getOrCompile (c : CodeCache) : Prototype → Except CompileError CompiledUnit × CodeCache
  | ⟨id, source, line, last, nup, npar, va, max, code, ks, children, lines, locals, names⟩ =>
    match c.units[id]? with
    | some r => (r, { c with hits := c.hits + 1 })
    | none =>
      let p : Prototype :=
        ⟨id, source, line, last, nup, npar, va, max, code, ks, children, lines, locals, names⟩
      match p.lower with
      | .error e => (.error e, c.record id (.error e))
      | .ok l =>
        match compileAll c children with
        | (some e, c) => (.error e, c.record id (.error e))
        | (none, c) =>
          let (r, c) := c.assemble id l
          (r, c.record id r)

/-- Compiles prototypes in order up to the first failure, which is returned. -/
def compileAll (c : CodeCache) : List Prototype → Option CompileError × CodeCache
  | [] => (none, c)
  | p :: ps =>
    match getOrCompile c p with
    | (.error e, c) => (some e, c)
    | (.ok _, c) => compileAll c ps

end

end CodeCache

end LuaMachine
