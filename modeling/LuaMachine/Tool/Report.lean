/-!
What a command line tool does: the texts it writes and its exit code.
-/

namespace LuaMachine.Tool

/-- Why a file cannot be read. -/
inductive FileProblem
  | notFound
  | denied
  | notDirectory
  | isDirectory
  | nameTooLong
  | other (text : String)
  deriving DecidableEq, Repr

def FileProblem.message : FileProblem → String
  | notFound => "No such file or directory (os error 2)"
  | denied => "Permission denied (os error 13)"
  | notDirectory => "Not a directory (os error 20)"
  | isDirectory => "Is a directory (os error 21)"
  | nameTooLong => "File name too long (os error 36)"
  | other text => text

/-- The files a tool can read. -/
abbrev Files := String → Except FileProblem (List UInt8)

structure Report where
  code : UInt8
  out : String := ""
  err : String := ""
  deriving DecidableEq, Repr

/-- The same report after a text on standard output. -/
def Report.after (text : String) (r : Report) : Report := { r with out := text ++ r.out }

end LuaMachine.Tool
