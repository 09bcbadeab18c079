import Mathlib.Tactic
import LuaMachine.Lowering
import LuaMachine.Verifier

/-!
Instruction words and operand words. Code is partitioned from the left: an instruction tells how
many operand words follow it, and the word after those is an instruction again.
-/

namespace LuaMachine

namespace Prototype

variable (p : Prototype)

/-- The number of operand words an instruction takes. -/
def operandCount (w : UInt32) : Nat :=
  let i : Instruction := ⟨w⟩
  match i.opcode? with
  | some .setList => if i.c = 0 then 1 else 0
  | some .closure => ((p.children[i.bx]?).map (·.upvalueCount.toNat)).getD 0
  | _ => 0

/-- Marks the operand words of a list of words, of which the first `pending` are operands. -/
def markOperands : Nat → List UInt32 → List Bool
  | _, [] => []
  | n + 1, _ :: r => true :: markOperands n r
  | 0, w :: r => false :: markOperands (p.operandCount w) r

def IsInstruction (pc : Nat) : Prop := (p.markOperands 0 p.code.toList)[pc]? = some false

def IsOperand (pc : Nat) : Prop := (p.markOperands 0 p.code.toList)[pc]? = some true

@[simp]
theorem length_markOperands (n : Nat) (ws : List UInt32) :
    (p.markOperands n ws).length = ws.length := by
  induction ws generalizing n with
  | nil => rfl
  | cons w ws ih => cases n <;> simp [markOperands, ih]

/-- The words after `n` pending ones are marked as if nothing were pending. -/
theorem drop_markOperands (n : Nat) (ws : List UInt32) :
    (p.markOperands n ws).drop n = p.markOperands 0 (ws.drop n) := by
  induction n generalizing ws with
  | zero => rfl
  | succ n ih =>
    cases ws with
    | nil => rfl
    | cons w ws => simpa [markOperands] using ih ws

theorem getElem?_markOperands_of_lt {n i : Nat} {ws : List UInt32} (hi : i < n)
    (hw : i < ws.length) : (p.markOperands n ws)[i]? = some true := by
  induction n generalizing i ws with
  | zero => omega
  | succ n ih =>
    cases ws with
    | nil => simp at hw
    | cons w ws =>
      cases i with
      | zero => rfl
      | succ i =>
        simp only [markOperands, List.getElem?_cons_succ]
        exact ih (by omega) (by simpa using hw)

/-- Marking goes on from an instruction with the operand words that it takes. -/
theorem drop_markOperands_of_instruction {n i : Nat} {ws : List UInt32}
    (hi : (p.markOperands n ws)[i]? = some false) {w : UInt32} (hw : ws[i]? = some w) :
    (p.markOperands n ws).drop (i + 1) = p.markOperands (p.operandCount w) (ws.drop (i + 1)) := by
  induction i generalizing n ws with
  | zero =>
    cases ws with
    | nil => simp at hw
    | cons v ws =>
      obtain rfl : v = w := by simpa using hw
      cases n with
      | zero => rfl
      | succ n => simp [markOperands] at hi
  | succ i ih =>
    cases ws with
    | nil => simp at hw
    | cons v ws =>
      cases n with
      | zero =>
        simp only [markOperands, List.getElem?_cons_succ, List.drop_succ_cons] at hi hw ⊢
        exact ih hi hw
      | succ n =>
        simp only [markOperands, List.getElem?_cons_succ, List.drop_succ_cons] at hi hw ⊢
        exact ih hi hw

variable {p}

theorem IsInstruction.lt {pc : Nat} (h : p.IsInstruction pc) : pc < p.code.size := by
  obtain ⟨hlt, -⟩ := List.getElem?_eq_some_iff.1 h
  simpa using hlt

theorem IsInstruction.exists_word {pc : Nat} (h : p.IsInstruction pc) :
    ∃ w, p.code[pc]? = some w :=
  ⟨_, Array.getElem?_eq_getElem h.lt⟩

theorem IsInstruction.not_isOperand {pc : Nat} (h : p.IsInstruction pc) : ¬ p.IsOperand pc := by
  intro h'
  rw [IsInstruction] at h
  rw [IsOperand, h] at h'
  simp at h'

theorem isInstruction_or_isOperand {pc : Nat} (h : pc < p.code.size) :
    p.IsInstruction pc ∨ p.IsOperand pc := by
  have hlt : pc < (p.markOperands 0 p.code.toList).length := by simpa using h
  rw [IsInstruction, IsOperand, List.getElem?_eq_getElem hlt]
  cases (p.markOperands 0 p.code.toList)[pc] <;> simp

/-- Code starts with an instruction. -/
theorem isInstruction_zero (h : 0 < p.code.size) : p.IsInstruction 0 := by
  rw [IsInstruction]
  have hlen : p.code.toList.length = p.code.size := Array.length_toList
  cases hc : p.code.toList with
  | nil => simp [hc] at hlen; omega
  | cons w r => rfl

theorem IsInstruction.drop {pc : Nat} {w : UInt32} (h : p.IsInstruction pc)
    (hw : p.code[pc]? = some w) :
    (p.markOperands 0 p.code.toList).drop (pc + 1) =
      p.markOperands (p.operandCount w) (p.code.toList.drop (pc + 1)) :=
  p.drop_markOperands_of_instruction h (by simpa using hw)

/-- The words right after an instruction are its operands. -/
theorem IsInstruction.isOperand {pc i : Nat} {w : UInt32} (h : p.IsInstruction pc)
    (hw : p.code[pc]? = some w) (hi : i < p.operandCount w) (hlt : pc + 1 + i < p.code.size) :
    p.IsOperand (pc + 1 + i) := by
  have hlen : i < (p.code.toList.drop (pc + 1)).length := by simp; omega
  have hmark := p.getElem?_markOperands_of_lt hi hlen
  rwa [← h.drop hw, List.getElem?_drop] at hmark

/-- The word behind the operands of an instruction is an instruction. -/
theorem IsInstruction.next {pc : Nat} {w : UInt32} (h : p.IsInstruction pc)
    (hw : p.code[pc]? = some w) (hlt : pc + 1 + p.operandCount w < p.code.size) :
    p.IsInstruction (pc + 1 + p.operandCount w) := by
  have hdrop := p.drop_markOperands (p.operandCount w) (p.code.toList.drop (pc + 1))
  rw [← h.drop hw, List.drop_drop, List.drop_drop] at hdrop
  have hhead := congrArg (·[0]?) hdrop
  simp only [List.getElem?_drop, Nat.add_zero] at hhead
  rw [IsInstruction, hhead]
  cases hc : p.code.toList.drop (pc + 1 + p.operandCount w) with
  | nil =>
    have := congrArg List.length hc
    simp at this
    omega
  | cons v r => rfl

end Prototype

/-! What the verifier's scan says -/

namespace Verifier

open Prototype

variable {p : Prototype}

@[simp]
theorem require_eq_ok {ok : Bool} {c : Complaint} : require ok c = .ok () ↔ ok = true := by
  cases ok <;> simp [require, throw, throwThe, MonadExceptOf.throw, pure, Except.pure]

@[simp]
theorem target_eq_ok {t : Int} {n : Nat} :
    target p t = .ok n ↔ 0 ≤ t ∧ t < p.code.size ∧ n = t.toNat := by
  unfold target
  split
  · next h => simp [pure, Except.pure, h, eq_comm]
  · next h =>
    simp only [throw, throwThe, MonadExceptOf.throw, reduceCtorEq, false_iff]
    rintro ⟨h₁, h₂, -⟩
    exact h ⟨h₁, h₂⟩

end Verifier

end LuaMachine
