import LuaMachine.Proofs.Transparency

/-!
Where control may be. Verified code is left in one way only: where its last word is a batch word,
control falls through the `SETLIST` before it.
-/

namespace LuaMachine

/-- The frame that is taken up is at an instruction; so is the one that makes a step, and there it
has an operation to perform. -/
def Moment.AtInstruction : Moment → Prop
  | takeUp m => ∀ f, m.topFrame? = some f →
      ∃ c, f.closure? = some c ∧ (m.heap.closure c).proto.IsInstruction f.pc
  | step a _ _ => a.window.closure.proto.IsInstruction a.pc ∧ ∃ f, a.fetch? = some f

/-- The frame that makes a step runs a prototype of the program, and has run off its code. -/
def Moment.RunsOff (U : Prototype → Prop) : Moment → Prop
  | takeUp _ => False
  | step a _ _ => U a.window.closure.proto ∧ a.RanOff

namespace Activation

variable {embedding : Embedding} {run : Run} {a : Activation} {m : Machine}

/-- The interpreter finds no word where code was run off. -/
theorem RanOff.step_interpreter (h : a.RanOff) (he : a.engine = .interpreter) :
    step embedding run a m = .error (.malformed (.pcRange a.pc)) m := by
  obtain ⟨w, engine, pc⟩ := a
  cases he
  obtain ⟨-, hpc⟩ := h
  have hnone : w.closure.proto.code[pc]? = none := Array.getElem?_eq_none (Nat.le_of_eq hpc.symm)
  simp [step, interpretStep, hnone, Action.bind_apply]

/-- The threaded engine finds the batch word there. -/
theorem RanOff.step_threaded (h : a.RanOff) {u : CompiledUnit} (he : a.engine = .threaded u)
    (hu : a.window.closure.proto.IsUnit u) :
    step embedding run a m = .error (.malformed (.operandWord a.pc)) (m.atPc (a.pc + 1)) := by
  have hlowers := Prototype.lowersTo_of_lower hu.lower
  have hoperand : a.window.closure.proto.IsOperand a.pc := by
    have hlast : a.pc + 1 = a.window.closure.proto.code.size := by
      have hpc := h.2
      rwa [he] at hpc
    exact (Prototype.isInstruction_or_isOperand (Nat.lt_of_succ_le hlast.le)).resolve_left
      h.not_isInstruction
  have hdata := hlowers.data hoperand
  simp [step, threadedStep, he, hdata, Action.bind_apply]

end Activation

open Setting

variable {S : Setting} {m : Machine} {depth : Nat} {a : Activation} {below : List Frame} {f : Frame}
  {c : ClosureId}

theorem Setting.AtWork.atInstruction (hS : S.Valid) (hm : S.Sound m)
    (h : S.AtWork depth a m below f c) (r : Outcome (Option Activation)) :
    (Moment.step a m r).AtInstruction ∨ (Moment.step a m r).RunsOff S.program := by
  apply h.poised.imp
  · rintro ⟨hi, -⟩
    obtain ⟨word, op, after, -, -, hfetch, -⟩ := h.fetches hS hm rfl hi
    exact ⟨h.proto_eq ▸ hi, _, hfetch⟩
  · intro hoff
    exact ⟨h.proto_eq ▸ h.program hm, hoff⟩

variable {U : Prototype → Prop} {embedding : Embedding} {α : Type} {k : Bool}

/-- Whatever is run from a fresh machine over verified prototypes, control is at an instruction at
all moments, until code that ends in a batch word is run off; without such code it always is. -/
theorem verified_in_code (hU : IsProgram U) (hembedding : ∀ name, Routine U true (embedding name))
    (hm : m.Fresh) {drive : Run → Action α} (hdrive : Routine U k drive) (fuel : Nat) :
    Always embedding (fun t => t.AtInstruction ∨ t.RunsOff U) fuel drive m ∧
      ((∀ p, U p → ¬ p.EndsInBatch) → Always embedding Moment.AtInstruction fuel drive m) := by
  have hseen : Always embedding (fun t => t.AtInstruction ∨ t.RunsOff U) fuel drive m := by
    refine always_of_seen hU hembedding hdrive (hm.sound U true) (.inl rfl)
      fun S hS hprogram _ t ht => ?_
    cases t with
    | takeUp m =>
      obtain ⟨hm, f, hf, c, hclosure, -, hplace⟩ := ht
      refine .inl fun g hg => ?_
      obtain rfl := Option.some.inj (hf.symm.trans hg)
      exact ⟨c, hclosure, isInstruction_of_isReentry hplace⟩
    | step a m r =>
      obtain ⟨hm, ⟨depth, below, f, c, h⟩, -⟩ := ht
      exact hprogram ▸ h.atInstruction hS hm r
  refine ⟨hseen, fun hbatch => hseen.imp fun t ht => ht.resolve_right fun hoff => ?_⟩
  cases t with
  | takeUp m => exact hoff
  | step a m r => exact hbatch _ hoff.1 hoff.2.1

theorem Prototype.leap_not_endsInBatch : ¬ leap.EndsInBatch := by
  rintro ⟨pc, w, -, hw, hpc, hop, -⟩
  obtain rfl : pc = 1 := Nat.add_right_cancel (m := 2) hpc
  obtain rfl : (Instruction.abc .close 0 0 0).word = w := Option.some.inj hw
  exact absurd hop (by decide)

theorem verified_in_code_leap :
    Always (fun _ _ => pure 0) Moment.AtInstruction 9 (loadAndCall .leap []) Machine.bare := by
  refine (verified_in_code (Prototype.leap_verified.isProgram Prototype.leap_coherent)
    (fun _ => .pure 0) Machine.bare_fresh
    (.loadAndCall (k := false) Prototype.leap.contains_self []) 9).2 fun p hp => ?_
  rw [Prototype.contains_leap hp]
  exact Prototype.leap_not_endsInBatch

end LuaMachine
