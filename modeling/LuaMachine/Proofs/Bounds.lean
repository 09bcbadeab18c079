import LuaMachine.Proofs.Transparency

/-!
Verified code stays within bounds: in every state a run reaches, what an instruction names by fixed
operands is there.
-/

namespace LuaMachine

/-- The registers of every frame of a Lua function lie above the function and within the stack. -/
def Machine.FramesFit (m : Machine) : Prop :=
  ∀ s : Strand, (s = m.running ∨ s ∈ m.parked ∨ ∃ co ∈ m.heap.coroutines, co.strand = some s) →
    ∀ f ∈ s.frames, ∀ c, f.closure? = some c → c.index < m.heap.closures.size ∧ f.slot < f.base ∧
      f.base + (m.heap.closure c).proto.maxStack.toNat ≤ s.stack.size

/-- What an operation of an activation names by fixed operands is there, and its jumps and skips lead
to instructions. -/
structure Activation.Finds (a : Activation) (m : Machine) (op : Operation) : Prop where
  registers : ∀ r ∈ op.registers, a.window.base + r < m.running.stack.size
  scratch : ∀ r ∈ op.scratch, a.window.base + r < m.running.stack.size
  constants : ∀ k ∈ op.constants, k < a.window.closure.proto.constants.size
  upvalues : ∀ i ∈ op.upvalues, i < a.window.closure.upvalues.size
  children : ∀ i ∈ op.children, i < a.window.closure.proto.children.length
  targets : ∀ t ∈ op.targets a.pc, a.window.closure.proto.IsInstruction t

/-- An activation runs the frame on top, interpreted or threaded, and finds what it names. -/
structure Activation.InBounds (a : Activation) (m : Machine) (r : Outcome (Option Activation)) :
    Prop where
  portable : a.Portable
  frame : ∃ f, m.topFrame? = some f ∧ f.base = a.window.base ∧
    ∃ c, f.closure? = some c ∧ (m.heap.closure c).erase = a.window.closure.erase
  finds : ∀ f, a.fetch? = some f → a.Finds m f.operation
  leads : ∀ a' m', r = .ok (some a') m' → a.LeadsTo a'.pc

def Moment.InBounds : Moment → Prop
  | takeUp m => m.FramesFit
  | step a m r => m.FramesFit ∧ a.InBounds m r

open Setting

variable {S : Setting} {m : Machine} {depth : Nat} {a : Activation} {below : List Frame} {f : Frame}
  {c : ClosureId}

namespace Setting

theorem Sound.framesFit (hm : S.Sound m) : m.FramesFit := by
  have hstrand {s : Strand} (hs : s.Sound m.heap) (f : Frame) (hf : f ∈ s.frames) (c : ClosureId)
      (hc : f.closure? = some c) : c.index < m.heap.closures.size ∧ f.slot < f.base ∧
        f.base + (m.heap.closure c).proto.maxStack.toNat ≤ s.stack.size := by
    obtain ⟨hlt, hfits, -⟩ := hs f hf c hc
    exact ⟨hlt, hfits.slot, (Nat.le_add_right _ 6).trans hfits.window⟩
  rintro s (rfl | hs | ⟨co, hco, hs⟩)
  · exact hstrand hm.running
  · exact hstrand (hm.parked s hs)
  · exact hstrand ((hm.coroutines co hco).strand s hs)

/-- What is fetched fits the prototype of the frame, whose registers are on the stack. -/
theorem AtWork.fits (hS : S.Valid) (hm : S.Sound m) (h : S.AtWork depth a m below f c)
    {fetched : Fetched} (hfetch : a.fetch? = some fetched) :
    fetched.operation.Fits a.window.closure.proto ∧
      a.window.base + a.window.closure.proto.maxStack.toNat + 6 ≤ m.running.stack.size := by
  rcases h.place with hi | ⟨-, hnone⟩
  swap
  · simp [hnone] at hfetch
  have hverified := hS.program.verified (h.program hm)
  obtain ⟨word, op, after, hw, hop, hfetch', -⟩ := h.fetches hS hm rfl hi
  obtain rfl := Option.some.inj (hfetch'.symm.trans hfetch)
  have hmem : f ∈ m.running.frames := Array.mem_of_back? (topFrame?_of_append h.frames)
  obtain ⟨-, hframe, -⟩ := hm.running f hmem c h.closure
  rw [h.base, h.proto_eq]
  exact ⟨hverified.checked.fits hi hw hop, hframe.window⟩

theorem AtWork.finds (hS : S.Valid) (hm : S.Sound m) (h : S.AtWork depth a m below f c)
    {fetched : Fetched} (hfetch : a.fetch? = some fetched) : a.Finds m fetched.operation := by
  obtain ⟨hfits, hwindow⟩ := h.fits hS hm hfetch
  have hupvalues : a.window.closure.upvalues.size = a.window.closure.proto.upvalueCount.toNat := by
    change a.window.closure.erase.upvalues.size = a.window.closure.proto.upvalueCount.toNat
    rw [h.window, h.proto_eq]
    exact (hm.closures _ (Heap.closure_mem h.closure_lt)).upvalues
  refine ⟨fun r hr => ?_, fun r hr => ?_, hfits.constants, hupvalues ▸ hfits.upvalues, hfits.children,
    fun t ht => ?_⟩
  · have := hfits.registers r hr
    omega
  · have := hfits.scratch r hr
    omega
  · rcases h.place with hi | ⟨-, hnone⟩
    swap
    · simp [hnone] at hfetch
    have hverified := hS.program.verified (h.program hm)
    obtain ⟨l, hl⟩ := hverified.exists_lower
    obtain ⟨word, op, after, hw, hop, hfetch', -⟩ := h.fetches hS hm rfl hi
    obtain rfl := Option.some.inj (hfetch'.symm.trans hfetch)
    rw [h.proto_eq]
    exact (Prototype.lowersTo_of_lower hl).isInstruction_target hi hw hop ht

end Setting

variable {U : Prototype → Prop} {embedding : Embedding} {α : Type} {k : Bool}

/-- Whatever is run from a fresh machine over verified prototypes, what is named by fixed operands is
there at all moments. -/
theorem verified_in_bounds (hU : IsProgram U) (hembedding : ∀ name, Routine U true (embedding name))
    (hm : m.Fresh) {drive : Run → Action α} (hdrive : Routine U k drive) (fuel : Nat) :
    Always embedding Moment.InBounds fuel drive m := by
  refine always_of_seen hU hembedding hdrive (hm.sound U true) (.inl rfl) fun S hS _ _ t ht => ?_
  cases t with
  | takeUp m => exact ht.1.framesFit
  | step a m r =>
    obtain ⟨hm, ⟨depth, below, f, c, h⟩, hleads⟩ := ht
    refine ⟨hm.framesFit, h.portable, ?_, fun _ => h.finds hS hm, hleads⟩
    exact ⟨f, topFrame?_of_append h.frames, h.base.symm, c, h.closure, h.window.symm⟩

theorem verified_in_bounds_leap :
    Always (fun _ _ => pure 0) Moment.InBounds 9 (loadAndCall .leap []) Machine.bare :=
  verified_in_bounds (Prototype.leap_verified.isProgram Prototype.leap_coherent) (fun _ => .pure 0)
    Machine.bare_fresh (.loadAndCall (k := false) Prototype.leap.contains_self []) 9

end LuaMachine
