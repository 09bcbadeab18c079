import LuaMachine.Opcode

/-!
Instruction words. From the low end a word holds the opcode (6 bits), `A` (8 bits), `C` (9 bits)
and `B` (9 bits); `Bx` is the 18 bits of `B` and `C` together, and `sBx` is `Bx` less 131071.
A 9-bit operand that may name a register or a constant (RK) marks a constant by its top bit.
-/

namespace LuaMachine

structure Instruction where
  word : UInt32
  deriving DecidableEq

namespace Instruction

/-- The excess of a stored `sBx`. -/
def jumpBias : Nat := 131071

/-- The bit of an RK operand that marks a constant. -/
def constantBit : Nat := 256

variable (i : Instruction)

def opcodeNumber : Nat := i.word.toNat % 64

def opcode? : Option Opcode := Opcode.ofNumber? i.opcodeNumber

def a : Nat := i.word.toNat / 64 % 256

def c : Nat := i.word.toNat / 16384 % 512

def b : Nat := i.word.toNat / 8388608

def bx : Nat := i.word.toNat / 16384

def sbx : Int := (i.bx : Int) - jumpBias

/-- Packs the fields; an operand too large for its field loses its high bits. -/
def abc (op : Opcode) (a b c : Nat) : Instruction :=
  ⟨.ofNat (op.number + 64 * (a % 256) + 16384 * (c % 512) + 8388608 * (b % 512))⟩

def abx (op : Opcode) (a bx : Nat) : Instruction :=
  ⟨.ofNat (op.number + 64 * (a % 256) + 16384 * (bx % 262144))⟩

def asbx (op : Opcode) (a : Nat) (sbx : Int) : Instruction :=
  abx op a ((sbx + jumpBias) % 262144).toNat

/-- Whether an RK operand names a constant. -/
def isConstant (x : Nat) : Bool := x / constantBit % 2 == 1

/-- The index an RK operand names, without the constant bit. -/
def constantIndex (x : Nat) : Nat := if isConstant x then x - constantBit else x

/-- The RK operand that names constant `k`. -/
def ofConstant (k : Nat) : Nat := if isConstant k then k else k + constantBit

theorem toNat_abc (op : Opcode) (a b c : Nat) :
    (abc op a b c).word.toNat =
      op.number + 64 * (a % 256) + 16384 * (c % 512) + 8388608 * (b % 512) := by
  have := op.number_lt
  simp only [abc, UInt32.toNat_ofNat']
  omega

@[simp]
theorem opcode?_abc (op : Opcode) (a b c : Nat) : (abc op a b c).opcode? = some op := by
  have h : (abc op a b c).opcodeNumber = op.number := by
    have := op.number_lt
    rw [opcodeNumber, toNat_abc]
    omega
  rw [opcode?, h, Opcode.ofNumber?_number]

@[simp]
theorem a_abc (op : Opcode) (a b c : Nat) : (abc op a b c).a = a % 256 := by
  have := op.number_lt
  rw [Instruction.a, toNat_abc]
  omega

@[simp]
theorem b_abc (op : Opcode) (a b c : Nat) : (abc op a b c).b = b % 512 := by
  have := op.number_lt
  rw [Instruction.b, toNat_abc]
  omega

@[simp]
theorem c_abc (op : Opcode) (a b c : Nat) : (abc op a b c).c = c % 512 := by
  have := op.number_lt
  rw [Instruction.c, toNat_abc]
  omega

end Instruction

/-- A size hint `eeeeexxx`: `xxx` itself when the exponent is zero, else `1xxx` shifted by
one less than the exponent. -/
def sizeHint (x : Nat) : Nat :=
  let e := x / 8 % 32
  if e = 0 then x else (x % 8 + 8) <<< (e - 1)

end LuaMachine
