import LuaMachine.Proofs.LoweredCode

/-!
Open operands. Some instructions leave as many values as there happen to be, from a register up to
the top; others take all values up to the top. In between the top is at least at that register, and
elsewhere it is at the end of the registers.
-/

namespace LuaMachine

namespace Operation

/-- The register from which an operation leaves an open number of values. A tail call leaves those
of a host function. -/
def opens : Operation → Option Nat
  | call a _ 0 | tailCall a _ | vararg a 0 => some a
  | _ => none

/-- Whether the top is at the end of the registers after an operation, wherever it was before. -/
def closes : Operation → Bool
  | call _ _ (_ + 1) | tForLoop .. | setList _ 0 _ => true
  | _ => false

/-- The register above which an operation takes all values up to the top. -/
def takes : Operation → Option Nat
  | call a 0 _ | tailCall a 0 | setList a 0 _ => some a
  | _ => none

/-- The register from which a call leaves results, and how many if their number is fixed. -/
def awaits : Operation → Option (Nat × Option Nat)
  | call a _ c => some (a, if c = 0 then none else some (c - 1))
  | tailCall a _ => some (a, none)
  | _ => none

/-- Whether the instruction behind an operation can be the next one. -/
def fallsThrough : Operation → Bool
  | jmp _ | forPrep .. | ret .. | loadBool _ _ true => false
  | _ => true

/-- Where control may go from an operation at `pc`, the place behind it being `after`. -/
def Leads (op : Operation) (pc after next : Nat) : Prop :=
  op.fallsThrough = true ∧ next = after ∨ next ∈ op.targets pc

variable {op : Operation} {r : Nat}

theorem opens_of_awaits (h : op.awaits = some (r, none)) : op.opens = some r := by
  cases op with
  | call a b c => cases c <;> simp_all [awaits, opens]
  | tailCall a b => simpa [awaits, opens] using h
  | _ => cases h

theorem closes_of_awaits {n : Nat} (h : op.awaits = some (r, some n)) :
    op.opens = none ∧ op.closes = true := by
  cases op with
  | call a b c => cases c <;> simp_all [awaits, opens, closes]
  | _ => cases h

theorem lt_maxStack_of_takes {p : Prototype} (h : op.Fits p) (ht : op.takes = some r) :
    r < p.maxStack.toNat := by
  apply h.registers
  cases op with
  | call a b c | tailCall a b | setList a b n => cases b <;> simp_all [takes, registers]
  | _ => cases ht

end Operation

namespace Prototype

/-- The instruction at `pc` stands for an operation, and its operand words end before `after`. -/
def Decodes (p : Prototype) (pc : Nat) (op : Operation) (after : Nat) : Prop :=
  p.IsInstruction pc ∧ ∃ word opcode, p.code[pc]? = some word ∧
    (⟨word⟩ : Instruction).opcode? = some opcode ∧ p.operationAt pc word opcode = op ∧
    pc + 1 + p.operandCount word = after

/-- A path leads to a place from an instruction that leaves an open number of values from the
register `r` on, and no instruction on the path moves the top down. -/
inductive OpenAt (p : Prototype) (r : Nat) : Nat → Prop
  | opened {pc after next : Nat} {op : Operation} (h : p.Decodes pc op after)
      (hop : op.opens = some r) (hleads : op.Leads pc after next) : OpenAt p r next
  | kept {pc after next : Nat} {op : Operation} (h : OpenAt p r pc) (hop : p.Decodes pc op after)
      (hopens : op.opens = none) (hcloses : op.closes = false) (hleads : op.Leads pc after next) :
    OpenAt p r next

end Prototype

end LuaMachine
