/-!
Printable names of chunks. A source that starts with `=` names the chunk itself and one that
starts with `@` names a file, whose end is kept when it is long; any other source is program text,
shown by its first line.
-/

namespace LuaMachine.ChunkName

/-- The room for a chunk name. -/
def size : Nat := 60

/-- The first line of a text, without its line end. -/
def firstLine (s : List Char) : List Char :=
  let line := s.takeWhile (· != '\n')
  if line.length < s.length && line.getLast? == some '\r' then line.dropLast else line

def ofText (s : List Char) : List Char :=
  let line := firstLine s
  let room := size - 15
  let body :=
    if line.length < s.length || room < line.length then line.take room ++ "...".toList else line
  "[string \"".toList ++ body ++ "\"]".toList

def ofSource : List Char → List Char
  | '=' :: name => name.take (size - 1)
  | '@' :: file =>
    if file.length ≤ size - 1 then file else "...".toList ++ file.drop (file.length - (size - 4))
  | text => ofText text

/-- The printable name of a chunk. -/
def render (source : String) : String := String.ofList (ofSource source.toList)

end LuaMachine.ChunkName
