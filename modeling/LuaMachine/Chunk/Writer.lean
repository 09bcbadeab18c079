import LuaMachine.Chunk.Layout
import LuaMachine.Prototype
import LuaMachine.Text.Utf8

/-!
Writing prototypes as binary chunks. A nested function whose source is its parent's leaves the
source out; a stripped chunk leaves out all sources and all debug information.
-/

namespace LuaMachine.Chunk

def header (l : Layout) : List UInt8 :=
  signature ++ [0x51, 0, if l.littleEndian then 1 else 0, 4, if l.wideSizes then 8 else 4, 4, 8, 0]

namespace Layout

variable (l : Layout)

def writeInt (n : Nat) : List UInt8 := l.encode 4 n

/-- A string with its closing zero, or the size zero for none. -/
def writeString : Option String → List UInt8
  | none => l.encode l.sizeWidth 0
  | some s =>
    let bytes := Text.toBytes s
    l.encode l.sizeWidth (bytes.length + 1) ++ bytes ++ [0]

/-- A count and the elements it counts. -/
def writeList {α : Type} (write : α → List UInt8) (xs : List α) : List UInt8 :=
  l.writeInt xs.length ++ xs.flatMap write

def writeConstant : Constant → List UInt8
  | .nil => [0]
  | .bool b => [1, if b then 1 else 0]
  | .numeral bits => 3 :: l.encode 8 bits.toNat
  | .str s => 4 :: l.writeString (some s)

def writeLocal (v : LocalVariable) : List UInt8 :=
  l.writeString (some v.name) ++ l.writeInt v.startPc.toNat ++ l.writeInt v.endPc.toNat

def writeWord (w : UInt32) : List UInt8 := l.writeInt w.toNat

mutual

def writeFunction (strip : Bool) (parent : Option String) : Prototype → List UInt8
  | ⟨_, source, line, last, nup, npar, va, max, code, ks, children, lines, locals, names⟩ =>
    l.writeString (if strip || parent == some source then none else some source)
      ++ l.writeInt line.toNat ++ l.writeInt last.toNat ++ [nup, npar, va, max]
      ++ l.writeList l.writeWord code.toList
      ++ l.writeList l.writeConstant ks.toList
      ++ l.writeInt children.length ++ writeFunctions strip source children
      ++ if strip then l.writeInt 0 ++ l.writeInt 0 ++ l.writeInt 0
        else l.writeList l.writeWord lines.toList ++ l.writeList l.writeLocal locals
          ++ l.writeList (fun s => l.writeString (some s)) names

def writeFunctions (strip : Bool) (parent : String) : List Prototype → List UInt8
  | [] => []
  | p :: ps => writeFunction strip (some parent) p ++ writeFunctions strip parent ps

end

/-- The chunk of a prototype tree in this layout. -/
def write (strip : Bool) (p : Prototype) : List UInt8 :=
  header l ++ l.writeFunction strip none p

end Layout

/-- The chunk of a prototype tree. -/
def dump (strip : Bool) (p : Prototype) : List UInt8 := Layout.standard.write strip p

end LuaMachine.Chunk
