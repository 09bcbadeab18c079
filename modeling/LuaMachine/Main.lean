import LuaMachine.Tool.Lister
import LuaMachine.Tool.Runner

/-!
The command line. One executable is both tools: called `bytecode_dump` it lists a chunk, under any
other name it runs one.
-/

namespace LuaMachine.Tool

/-- The problem with a system's number; some calls give it negated. -/
def problem (number : UInt32) (text : String) : FileProblem :=
  match if number < 0x80000000 then number else 0 - number with
  | 20 => .notDirectory
  | 21 => .isDirectory
  | 36 => .nameTooLong
  | _ => .other text

/-- Reads a file whole. -/
def readFile (name : String) : IO (Except FileProblem (List UInt8)) := do
  try
    let bytes ← IO.FS.readBinFile name
    pure (.ok bytes.data.toList)
  catch
    | .noFileOrDirectory .. => pure (.error .notFound)
    | .permissionDenied .. => pure (.error .denied)
    | .inappropriateType _ number text | .invalidArgument _ number text =>
      pure (.error (problem number text))
    | e => pure (.error (.other (toString e)))

/-- The files a tool may ask for, of which there is at most one. -/
def readFiles : Option String → IO Files
  | none => pure fun _ => .error .notFound
  | some name => do
    let content ← readFile name
    pure fun _ => content

def runLister (args : List String) : IO Report := do
  let files ← readFiles args.head?
  pure (Lister.run files args)

def runRunner (program : String) (args : List String) : IO Report := do
  let invocation := (Runner.Invocation.parse {} args).toOption
  let files ← readFiles (invocation.bind fun i => i.chunk.map Prod.fst)
  let environment ← IO.getEnv Runner.modeVariable
  pure (Runner.run files environment program args)

end LuaMachine.Tool

def main (args : List String) : IO UInt32 := do
  let program := (← IO.appPath).fileName.getD "luatier"
  let report ←
    if program == "bytecode_dump" then LuaMachine.Tool.runLister args
    else LuaMachine.Tool.runRunner program args
  IO.print report.out
  IO.eprint report.err
  pure report.code.toUInt32
