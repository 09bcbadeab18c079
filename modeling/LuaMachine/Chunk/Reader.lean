import LuaMachine.Chunk.Layout
import LuaMachine.Prototype
import LuaMachine.Text.Utf8

/-!
Reading binary chunks. A reader takes bytes off the front of the input or says what is wrong; the
whole input has to be used up. Functions without a source of their own take their parent's.
-/

namespace LuaMachine.Chunk

/-- What a header does not agree with. -/
inductive HeaderField
  | signature
  | version (found : UInt8)
  | format
  | endianness
  | intSize
  | sizeWidth
  | number
  deriving DecidableEq, Repr

def HeaderField.message : HeaderField → String
  | signature => "not a binary chunk"
  | version v => "version 0x" ++ String.ofList (Nat.toDigits 16 v.toNat)
  | format => "format"
  | endianness => "endianness"
  | intSize => "int size"
  | sizeWidth => "size_t"
  | number => "lua_Number"

/-- Why bytes are no chunk. -/
inductive Flaw
  | truncated
  | header (field : HeaderField)
  | count (n : Int)
  | constantTag (tag : UInt8)
  | tooDeep
  | trailing
  deriving DecidableEq, Repr

def Flaw.message : Flaw → String
  | truncated => "truncated precompiled chunk"
  | header field => "bad header in precompiled chunk: " ++ field.message
  | count n => "bad count " ++ toString n ++ " in precompiled chunk"
  | constantTag tag => "bad constant type " ++ toString tag.toNat
  | tooDeep => "precompiled chunk nests too deeply"
  | trailing => "trailing bytes after precompiled chunk"

abbrev Reader (α : Type) := StateT (List UInt8) (Except Flaw) α

/-- The first `n` elements and the rest, if there are that many. -/
def splitExact {α : Type} : Nat → List α → Option (List α × List α)
  | 0, r => some ([], r)
  | _ + 1, [] => none
  | n + 1, a :: r => (splitExact n r).map fun (front, rest) => (a :: front, rest)

theorem splitExact_eq_some_iff {α : Type} {n : Nat} {s front rest : List α} :
    splitExact n s = some (front, rest) ↔ s = front ++ rest ∧ front.length = n := by
  induction n generalizing s front with
  | zero =>
    simp only [splitExact, Option.some.injEq, Prod.mk.injEq, List.length_eq_zero_iff]
    constructor
    · rintro ⟨rfl, rfl⟩
      exact ⟨rfl, rfl⟩
    · rintro ⟨rfl, rfl⟩
      exact ⟨rfl, rfl⟩
  | succ n ih =>
    cases s with
    | nil =>
      simp only [splitExact, reduceCtorEq, false_iff, not_and]
      intro h
      cases front <;> simp at h ⊢
    | cons a r =>
      simp only [splitExact, Option.map_eq_some_iff, Prod.exists, Prod.mk.injEq]
      constructor
      · rintro ⟨f, r', h, rfl, rfl⟩
        obtain ⟨rfl, rfl⟩ := ih.1 h
        exact ⟨rfl, rfl⟩
      · rintro ⟨h, hn⟩
        cases front with
        | nil => simp at hn
        | cons b f =>
          injection h with hb hr
          subst hb
          exact ⟨f, rest, ih.2 ⟨hr, by simpa using hn⟩, rfl, rfl⟩

def take (n : Nat) : Reader (List UInt8) := fun s =>
  match splitExact n s with
  | some r => .ok r
  | none => .error .truncated

def byte : Reader UInt8 := fun s =>
  match s with
  | b :: r => .ok (b, r)
  | [] => .error .truncated

/-- Reads with one reader a number of times. -/
def replicate {α : Type} (read : Reader α) : Nat → Reader (List α)
  | 0 => pure []
  | n + 1 => do
    let x ← read
    let xs ← replicate read n
    pure (x :: xs)

/-- Reads the twelve header bytes. -/
def readHeader : Reader Layout := do
  let h ← take 12
  match h with
  | [s0, s1, s2, s3, version, format, order, int, size, instruction, number, integral] =>
    if [s0, s1, s2, s3] ≠ signature then throw (.header .signature)
    if version ≠ 0x51 then throw (.header (.version version))
    if format ≠ 0 then throw (.header .format)
    if order ≠ 0 ∧ order ≠ 1 then throw (.header .endianness)
    if int ≠ 4 ∨ instruction ≠ 4 then throw (.header .intSize)
    if size ≠ 4 ∧ size ≠ 8 then throw (.header .sizeWidth)
    if number ≠ 8 ∨ integral ≠ 0 then throw (.header .number)
    pure ⟨order == 1, size == 8⟩
  | _ => throw .truncated

namespace Layout

variable (l : Layout)

def nat (width : Nat) : Reader Nat := l.decode <$> take width

def word : Reader UInt32 := .ofNat <$> l.nat 4

/-- A count of elements. It is a signed number, and no more than the bytes that are left. -/
def count : Reader Nat := do
  let n ← l.nat 4
  let rest ← get
  if n < 2147483648 ∧ n ≤ rest.length then pure n
  else throw (.count (if n < 2147483648 then n else (n : Int) - 4294967296))

/-- A counted list. -/
def list {α : Type} (read : Reader α) : Reader (List α) := do
  let n ← l.count
  replicate read n

/-- A string stored with a closing byte; the size zero means none. -/
def string? : Reader (Option String) := do
  let n ← l.nat l.sizeWidth
  if n = 0 then pure none
  else
    let bytes ← take n
    pure (some (Text.ofBytes bytes.dropLast))

def string : Reader String := do
  let s ← l.string?
  pure (s.getD "")

def constant : Reader Constant := do
  let tag ← byte
  if tag = 0 then pure .nil
  else if tag = 1 then
    let b ← byte
    pure (.bool (b != 0))
  else if tag = 3 then
    let bits ← l.nat 8
    pure (.numeral (.ofNat bits))
  else if tag = 4 then
    let s ← l.string
    pure (.str s)
  else throw (.constantTag tag)

def localVariable : Reader LocalVariable := do
  let name ← l.string
  let startPc ← l.word
  let endPc ← l.word
  pure ⟨name, startPc, endPc⟩

/-- A function, its nested functions at most `depth` deep with it. -/
def function : Nat → String → Reader Prototype
  | 0, _ => throw .tooDeep
  | depth + 1, parent => do
    let own ← l.string?
    let source := own.getD parent
    let line ← l.word
    let last ← l.word
    let nup ← byte
    let npar ← byte
    let va ← byte
    let max ← byte
    let code ← l.list l.word
    let constants ← l.list l.constant
    let children ← l.list (function depth source)
    let lines ← l.list l.word
    let locals ← l.list l.localVariable
    let names ← l.list l.string
    pure ⟨0, source, line, last, nup, npar, va, max, code.toArray, constants.toArray, children,
      lines.toArray, locals, names⟩

end Layout

/-- The source of a main function that has none. -/
def unknownSource : String := "=?"

/-- The prototype tree in a chunk, before it is given identities. -/
def load (bytes : List UInt8) : Except Flaw Prototype := do
  let (l, rest) ← readHeader.run bytes
  let (p, rest) ← (l.function maxDepth unknownSource).run rest
  if rest.isEmpty then pure p else throw .trailing

end LuaMachine.Chunk
