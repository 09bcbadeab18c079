import LuaMachine.Session
import LuaMachine.Tool.Report

/-!
The tool that runs a binary chunk.
-/

namespace LuaMachine.Tool.Runner

/-- What the command line asks for. -/
structure Invocation where
  mode : Option CompileMode := none
  /-- The chunk to run and its arguments. -/
  chunk : Option (String × List String) := none
  showVersion : Bool := false
  showStatistics : Bool := false
  ignoreEnvironment : Bool := false

inductive UsageError
  | missingMode
  | mode (message : String)
  | unknownOption (text : String)
  deriving DecidableEq, Repr

def UsageError.message : UsageError → String
  | missingMode => "'-j' needs argument"
  | mode message => message
  | unknownOption text => "unrecognized option '" ++ text ++ "'"

/-- The first argument is the chunk, whatever it looks like. -/
def Invocation.withChunk (i : Invocation) : List String → Invocation
  | [] => i
  | file :: args => { i with chunk := some (file, args) }

/-- Reads options up to the chunk. -/
def Invocation.parse (i : Invocation) : List String → Except UsageError Invocation
  | [] => .ok i
  | "-j" :: [] => .error .missingMode
  | "-j" :: mode :: r =>
    match CompileMode.ofString mode with
    | .ok mode => parse { i with mode := some mode } r
    | .error e => .error (.mode e)
  | "-s" :: r => parse { i with showStatistics := true } r
  | "-v" :: r => parse { i with showVersion := true } r
  | "-E" :: r => parse { i with ignoreEnvironment := true } r
  | "--" :: r => .ok (i.withChunk r)
  | arg :: r =>
    if arg.startsWith "-" then .error (.unknownOption arg) else .ok (i.withChunk (arg :: r))

def version : String := "luatier 0.1 (Lua 5.1 bytecode)\n"

def usage : String :=
  "usage: luatier [options] chunk [args]\n"
    ++ "Available options are:\n"
    ++ "  -j mode   compilation mode: off, auto or strict\n"
    ++ "  -s        print compilation statistics on exit\n"
    ++ "  -v        show version information\n"
    ++ "  -E        ignore environment variables\n"
    ++ "  --        stop handling options\n"

/-- The variable that gives the mode when the command line does not. -/
def modeVariable : String := "LUATIER_JIT"

def complaint (text : String) : String := "luatier: " ++ text ++ "\n"

def statistics (mode : CompileMode) (c : CodeCache) : String :=
  "jit: mode=" ++ mode.name ++ " compiled=" ++ toString c.compiled
    ++ " failed=" ++ toString c.failed ++ " cache_hits=" ++ toString c.hits
    ++ " native=" ++ toString c.nativeUnits ++ "\n"

/-- The table of arguments: the program at -1, the chunk at 0, then the chunk's arguments. -/
def argumentTable (program file : String) (args : List String) : Table :=
  let t := (Table.empty.setInt (-1) (.str program)).setInt 0 (.str file)
  args.zipIdx.foldl (fun t (arg, i) => t.setInt (i + 1) (.str arg)) t

/-- An error and the traceback it carries. -/
def faultText (e : Fault) : String :=
  match e with
  | .runtime _ (some traceback) => e.message ++ "\n" ++ traceback
  | _ => e.message

/-- No host functions beside the libraries. -/
def noEmbedding : Embedding := fun _ _ => pure 0

/-- Loads a chunk and calls it with its arguments; gives the text of an error. -/
def runChunk (files : Files) (file : String) (args : List String) :
    Action (Option String) := do
  match files file with
  | .error e => pure (some ("cannot open " ++ file ++ ": " ++ e.message))
  | .ok bytes =>
    match ← attempt (loadBinary bytes) with
    | .error e => pure (some (file ++ ": " ++ e.message))
    | .ok main =>
      match ← attempt (call (start noEmbedding) main (args.map .str)) with
      | .ok _ => pure none
      | .error e => pure (some (faultText e))

/-- Prepares a machine with the libraries and the argument table, and runs a chunk on it. -/
def session (files : Files) (program file : String) (args : List String) :
    Action (Option String) := do
  Library.installAll Library.standard
  let t ← newTable (argumentTable program file args)
  setGlobal "arg" t
  runChunk files file args

/-- A machine of its own, with no other machines on its heap. -/
def machine (mode : CompileMode) : Machine :=
  let (cache, heap) := Heap.newCache {} .threaded
  Machine.create heap 0 cache { mode := mode }

/-- Runs a chunk in a mode. -/
def execute (files : Files) (program : String) (mode : CompileMode) (showStatistics : Bool)
    (file : String) (args : List String) : Report :=
  let (problem, m) : Option String × Machine :=
    match session files program file args (machine mode) with
    | .ok problem m => (problem, m)
    | .error e m => (some e.message, m)
  { code := if problem.isSome then 1 else 0
    out := m.output
    err := (problem.map complaint).getD ""
      ++ if showStatistics then statistics mode m.codeCache else "" }

/-- The mode to run in: the command line's, else the environment's, else the default. A bad value in
the environment is an error even if the command line gives a mode. -/
def modeFor (i : Invocation) (environment : Option String) : Except String CompileMode :=
  let fallback : CompileMode := ({} : Options).mode
  match if i.ignoreEnvironment then none else environment with
  | none => .ok (i.mode.getD fallback)
  | some text => (CompileMode.ofString text).map fun mode => i.mode.getD mode

/-- Carries out an invocation that is to run something. -/
def invoke (files : Files) (environment : Option String) (program : String) (i : Invocation) :
    Report :=
  match i.chunk with
  | none => { code := 1, err := usage }
  | some (file, args) =>
    match modeFor i environment with
    | .error e => { code := 1, err := complaint (modeVariable ++ ": " ++ e) }
    | .ok mode => execute files program mode i.showStatistics file args

/-- Runs the tool. -/
def run (files : Files) (environment : Option String) (program : String) (args : List String) :
    Report :=
  match Invocation.parse {} args with
  | .error e => { code := 1, err := complaint e.message ++ usage }
  | .ok i =>
    if i.showVersion then
      if i.chunk.isNone then { code := 0, out := version }
      else (invoke files environment program i).after version
    else invoke files environment program i

end LuaMachine.Tool.Runner
