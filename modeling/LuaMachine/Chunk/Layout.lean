/-!
Layouts of binary chunks: byte order and width of sizes, and integers as bytes.
-/

namespace LuaMachine.Chunk

/-- The choices the header of a chunk leaves open. -/
structure Layout where
  littleEndian : Bool
  /-- Sizes of strings take eight bytes instead of four. -/
  wideSizes : Bool
  deriving DecidableEq, Repr

/-- The layout chunks are written in. -/
def Layout.standard : Layout := ⟨true, true⟩

/-- The low `width` bytes of a number, least first. -/
def bytesOf : Nat → Nat → List UInt8
  | 0, _ => []
  | width + 1, n => .ofNat (n % 256) :: bytesOf width (n / 256)

/-- The number with the given bytes, least first. -/
def ofBytes : List UInt8 → Nat
  | [] => 0
  | b :: r => b.toNat + 256 * ofBytes r

@[simp]
theorem length_bytesOf (width n : Nat) : (bytesOf width n).length = width := by
  induction width generalizing n with
  | zero => rfl
  | succ width ih => simp [bytesOf, ih]

theorem ofBytes_bytesOf (width n : Nat) : ofBytes (bytesOf width n) = n % Nat.pow 256 width := by
  induction width generalizing n with
  | zero => exact (Nat.mod_one n).symm
  | succ width ih =>
    have h : Nat.pow 256 (width + 1) = 256 * Nat.pow 256 width := Nat.mul_comm _ _
    simp only [bytesOf, ofBytes, ih, UInt8.toNat_ofNat', h, Nat.mod_mul]
    omega

namespace Layout

variable (l : Layout)

/-- Puts bytes given least first into the layout's order, and back. -/
def order (bytes : List UInt8) : List UInt8 :=
  if l.littleEndian then bytes else bytes.reverse

@[simp]
theorem order_order (bytes : List UInt8) : l.order (l.order bytes) = bytes := by
  unfold order
  split <;> simp

@[simp]
theorem length_order (bytes : List UInt8) : (l.order bytes).length = bytes.length := by
  unfold order
  split <;> simp

def encode (width n : Nat) : List UInt8 := l.order (bytesOf width n)

def decode (bytes : List UInt8) : Nat := ofBytes (l.order bytes)

def sizeWidth : Nat := if l.wideSizes then 8 else 4

end Layout

/-- The first bytes of every binary chunk. -/
def signature : List UInt8 := [0x1b, 0x4c, 0x75, 0x61]

/-- Whether the bytes start like a binary chunk. -/
def isBinary (bytes : List UInt8) : Bool := signature.isPrefixOf bytes

/-- How deep functions may nest in a chunk. -/
def maxDepth : Nat := 200

end LuaMachine.Chunk
