import LuaMachine.Operation

/-!
Lowering: a prototype's code as an array of operations, one for each word, so that places in the
code keep their meaning. Besides it lists the places some jump or skip leads to and the places at
which a frame may start or continue: the first word, and the word after each call.
-/

namespace LuaMachine

/-- Why a prototype cannot be lowered. -/
inductive LoweringFlaw
  | emptyCode
  | invalidOpcode (number : Nat)
  | target (t : Int)
  | missingBatch
  | child (i : Nat)
  | missingCaptures
  | operandTarget (t : Nat)
  deriving DecidableEq, Repr

def LoweringFlaw.message : LoweringFlaw → String
  | emptyCode => "empty code"
  | invalidOpcode n => "invalid opcode " ++ toString n
  | target t => "target " ++ toString t ++ " out of range"
  | missingBatch => "SETLIST missing its batch word"
  | child i => "prototype " ++ toString i ++ " out of range"
  | missingCaptures => "CLOSURE missing capture words"
  | operandTarget t => "target " ++ toString t ++ " is an operand word"

/-- Why a prototype cannot be compiled. -/
inductive CompileError
  | malformed (pc : Nat) (flaw : LoweringFlaw)
  /-- More operations than the native backend takes. -/
  | tooLong (operations : Nat)
  deriving DecidableEq, Repr

def CompileError.message : CompileError → String
  | malformed pc flaw => "malformed prototype at pc " ++ toString pc ++ ": " ++ flaw.message
  | tooLong n => "unsupported prototype of " ++ toString n ++ " instructions at pc 0"

structure Lowered where
  operations : Array Operation
  /-- Whether some jump, skip or re-entry leads here. -/
  labels : Array Bool
  /-- The places at which a frame may start or continue, in increasing order. -/
  entries : List Nat

namespace Lowered

def isEntry (l : Lowered) (pc : Nat) : Bool := l.entries.toArray.binSearchContains pc (· < ·)

/-- The first of `n` places from `pc` on that is no operand word. -/
def skipData (operations : Array Operation) : Nat → Nat → Option Nat
  | 0, _ => none
  | n + 1, pc =>
    match operations[pc]? with
    | some .data => skipData operations n (pc + 1)
    | _ => some pc

/-- The first operation after `pc` that is no operand word. -/
def fallthrough (l : Lowered) (pc : Nat) : Option Nat :=
  skipData l.operations (l.operations.size - (pc + 1)) (pc + 1)

end Lowered

namespace Lowering

/-- A place in the code reached from another one. -/
structure Edge where
  source : Nat
  target : Nat
  deriving DecidableEq, Repr

structure Scan where
  operations : List Operation := []
  edges : List Edge := []
  entries : List Nat := []

section

variable (p : Prototype)

def edge (pc : Nat) (t : Int) : Except CompileError (List Edge) :=
  if 0 ≤ t ∧ t < p.code.size then pure [⟨pc, t.toNat⟩]
  else throw (.malformed pc (.target t))

/-- The edges of an instruction that need not lead to the next one. -/
def edges (pc : Nat) (i : Instruction) (op : Opcode) : Except CompileError (List Edge) :=
  match op with
  | .jmp | .forLoop | .forPrep => edge p pc (pc + 1 + i.sbx)
  | .loadBool => if i.c = 0 then pure [] else edge p pc (pc + 2)
  | op => if op.isTest then edge p pc (pc + 2) else pure []

/-- The operand words of an instruction. -/
def operandWords (pc : Nat) (i : Instruction) (op : Opcode) (rest : List UInt32) :
    Except CompileError (List UInt32) :=
  match op with
  | .setList =>
    if i.c = 0 then
      match rest with
      | [] => throw (.malformed pc .missingBatch)
      | batch :: _ => pure [batch]
    else pure []
  | .closure =>
    match p.children[i.bx]? with
    | none => throw (.malformed pc (.child i.bx))
    | some child =>
      let n := child.upvalueCount.toNat
      if n ≤ rest.length then pure (rest.take n) else throw (.malformed pc .missingCaptures)
  | _ => pure []

/-- The re-entry after an instruction at `pc`. -/
def reentry (pc : Nat) (op : Opcode) : List Nat :=
  if op = .call ∧ pc + 1 < p.code.size then [pc + 1] else []

/-- Scans the words from `pc` on, of which the first `pending` are operands. -/
def scan (pc pending : Nat) : List UInt32 → Except CompileError Scan
  | [] => pure {}
  | w :: rest =>
    match pending with
    | pending + 1 => do
      let s ← scan (pc + 1) pending rest
      pure { s with operations := .data :: s.operations }
    | 0 => do
      let i : Instruction := ⟨w⟩
      let some op := i.opcode? | throw (.malformed pc (.invalidOpcode i.opcodeNumber))
      let es ← edges p pc i op
      let words ← operandWords p pc i op rest
      let s ← scan (pc + 1) words.length rest
      let batch := (words.headD 0).toNat
      let captures := words.map Capture.ofWord
      pure {
        operations := .ofInstruction i op pc batch captures :: s.operations
        edges := es ++ s.edges
        entries := reentry p pc op ++ s.entries }

end

end Lowering

open Lowering in
/-- The lowered form of a prototype, its children apart. -/
def Prototype.lower (p : Prototype) : Except CompileError Lowered := do
  if p.code.isEmpty then throw (.malformed 0 .emptyCode)
  let s ← scan p 0 0 p.code.toList
  let operations := s.operations.toArray
  s.edges.forM fun e =>
    if operations[e.target]? = some .data then throw (.malformed e.source (.operandTarget e.target))
    else pure ()
  let entries := 0 :: s.entries
  let labelled := s.edges.map (·.target) ++ entries
  let labels := labelled.foldl (fun ls pc => ls.setIfInBounds pc true)
    (Array.replicate p.code.size false)
  pure ⟨operations, labels, entries⟩

end LuaMachine
