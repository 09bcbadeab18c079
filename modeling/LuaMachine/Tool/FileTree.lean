import LuaMachine.Tool.Report

/-!
Files in folders, and how a path leads to one of them. A path that begins with a slash starts at the
root, any other in the working folder.
-/

namespace LuaMachine.Tool

inductive Entry
  | file (content : List UInt8)
  | folder (entries : List (String × Entry))

/-- An entry after the folders it is in, innermost first. -/
abbrev Trail := List Entry

namespace Trail

/-- The longest name of an entry, in bytes. -/
def nameLimit : Nat := 255

/-- Follows one name of a path. The folder above the root is the root itself. -/
def follow (trail : Trail) (name : String) : Except FileProblem Trail :=
  match trail with
  | .folder entries :: outer =>
    match name with
    | "" | "." => .ok trail
    | ".." => .ok (if outer.isEmpty then trail else outer)
    | name =>
      if nameLimit < name.utf8ByteSize then .error .nameTooLong
      else
        match entries.lookup name with
        | some e => .ok (e :: trail)
        | none => .error .notFound
  | _ => .error .notDirectory

end Trail

/-- A tree of files seen from one of its folders. -/
structure FileTree where
  root : Entry
  working : Trail

namespace FileTree

/-- The length, in bytes, from which on a path is too long. -/
def pathLimit : Nat := 4096

variable (t : FileTree)

/-- The entry a path leads to. -/
def resolve (path : String) : Except FileProblem Trail :=
  if path.isEmpty then .error .notFound
  else if pathLimit ≤ path.utf8ByteSize then .error .nameTooLong
  else (path.splitOn "/").foldlM Trail.follow (if path.startsWith "/" then [t.root] else t.working)

def read : Files := fun path => do
  match ← t.resolve path with
  | .file content :: _ => pure content
  | _ => throw .isDirectory

end FileTree

end LuaMachine.Tool
