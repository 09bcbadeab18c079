import LuaMachine.Chunk.Reader
import LuaMachine.Listing
import LuaMachine.Tool.Report

/-!
The tool that lists a binary chunk.
-/

namespace LuaMachine.Tool.Lister

def usage : String := "Usage: bytecode_dump <luac.out>\n"

def listChunk (bytes : List UInt8) : Report :=
  match Chunk.load bytes with
  | .ok p => { code := 0, out := Listing.render (p.identify 1).1 }
  | .error f => { code := 1, err := "Load error: malformed bytecode: " ++ f.message ++ "\n" }

/-- Lists the file named by the first argument. -/
def run (files : Files) : List String → Report
  | [] => { code := 0, out := usage }
  | file :: _ =>
    match files file with
    | .ok bytes => (listChunk bytes).after ("=== File: " ++ file ++ " ===\n\n")
    | .error e =>
      { code := 1, err := "Error reading file '" ++ file ++ "': " ++ e.message ++ "\n" }

end LuaMachine.Tool.Lister
