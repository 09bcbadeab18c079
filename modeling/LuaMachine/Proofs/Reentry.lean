import LuaMachine.Proofs.Reachable

/-!
Where frames are taken up again. A frame goes on at its start or behind a call; its unit can be
entered there, except behind a tail call.
-/

namespace LuaMachine

/-- The frame has stopped behind a tail call. -/
def Frame.IsBehindTailCall (h : Heap) (f : Frame) : Prop :=
  ∃ c i w, f.closure? = some c ∧ f.pc = i + 1 ∧ (h.closure c).proto.IsInstruction i ∧
    (h.closure c).proto.code[i]? = some w ∧ (⟨w⟩ : Instruction).opcode? = some .tailCall

/-- The frame that is taken up is at an instruction, and its unit lets it in unless that is behind a
tail call. -/
def Moment.EntersUnlessBehindTailCall : Moment → Prop
  | takeUp m => ∀ f, m.topFrame? = some f →
      (∃ c, f.closure? = some c ∧ (m.heap.closure c).proto.IsInstruction f.pc) ∧
        ∀ u, f.unit = some u → (u.lowered.isEntry f.pc = true ↔ ¬ f.IsBehindTailCall m.heap)
  | step .. => True

/-- The frame that is taken up is at an entry of its unit. -/
def Moment.EntersAtEntry : Moment → Prop
  | takeUp m => ∀ f u, m.topFrame? = some f → f.unit = some u → u.lowered.isEntry f.pc = true
  | step .. => True

open Setting

variable {S : Setting} {m : Machine} {f : Frame} {c : ClosureId}

theorem Frame.isEntry_iff_of_waits (hm : S.Sound m) (hf : m.topFrame? = some f)
    (hw : f.Waits true m.heap) {u : CompiledUnit} (hu : f.unit = some u) :
    u.lowered.isEntry f.pc = true ↔ ¬ f.IsBehindTailCall m.heap := by
  obtain ⟨c, hclosure, -, hlt, hplace⟩ := hw
  obtain ⟨-, -, hunit⟩ := hm.running f (Array.mem_of_back? hf) c hclosure
  rw [(Prototype.lowersTo_of_lower (hunit u hu).lower).isEntry]
  constructor
  · rintro ⟨-, hentry⟩ ⟨d, i, w, hd, hpc, -, hw, hop⟩
    obtain rfl : c = d := Option.some.inj (hclosure.symm.trans hd)
    rcases hentry with hzero | ⟨j, v, op, hj, -, hv, hop', rfl⟩
    · omega
    · obtain rfl : i = j := by omega
      obtain rfl := Option.some.inj (hw.symm.trans hv)
      rw [hop] at hop'
      simp at hop'
  · intro hbehind
    refine ⟨hlt, hplace.imp_right fun ⟨i, w, op, hpc, hi, hw, hop, hcalls⟩ => ?_⟩
    refine ⟨i, w, op, hpc, hi, hw, hop, hcalls.resolve_right fun ⟨_, htail⟩ => hbehind ?_⟩
    exact ⟨c, i, w, hclosure, hpc, hi, hw, htail ▸ hop⟩

theorem Frame.isEntry_of_waits (hm : S.Sound m) (hf : m.topFrame? = some f)
    (hw : f.Waits false m.heap) {u : CompiledUnit} (hu : f.unit = some u) :
    u.lowered.isEntry f.pc = true := by
  obtain ⟨c, hclosure, -, hplace⟩ := hw
  obtain ⟨-, -, hunit⟩ := hm.running f (Array.mem_of_back? hf) c hclosure
  rw [(Prototype.lowersTo_of_lower (hunit u hu).lower).isEntry]
  simpa [Opcode.Calls, Prototype.IsReentry] using hplace

variable {U : Prototype → Prop} {embedding : Embedding} {α : Type} {k : Bool}

/-- Whatever is run from a fresh machine over verified prototypes, compiled frames are only turned
away behind tail calls, and none is where no tail call yields. -/
theorem reentry_at_entries (hU : IsProgram U)
    (hembedding : ∀ name, Routine U true (embedding name)) (hm : m.Fresh) {drive : Run → Action α}
    (hdrive : Routine U k drive) (fuel : Nat) :
    Always embedding Moment.EntersUnlessBehindTailCall fuel drive m ∧
      (Always embedding (fun t => ¬ t.TailYields) fuel drive m →
        Always embedding Moment.EntersAtEntry fuel drive m) := by
  constructor
  · refine always_of_seen hU hembedding hdrive (hm.sound U true) (.inl rfl)
      fun S _ _ htails t ht => ?_
    cases t with
    | takeUp m =>
      obtain ⟨hm, f, hf, hw⟩ := ht
      rintro g hg
      obtain rfl := Option.some.inj (hf.symm.trans hg)
      rw [htails] at hw
      refine ⟨?_, fun u hu => Frame.isEntry_iff_of_waits hm hf hw hu⟩
      obtain ⟨c, hclosure, -, hplace⟩ := hw
      exact ⟨c, hclosure, isInstruction_of_isReentry hplace⟩
    | step => trivial
  · intro htails
    refine always_of_seen hU hembedding hdrive (hm.sound U false) (.inr htails)
      fun S _ _ htails t ht => ?_
    cases t with
    | takeUp m =>
      obtain ⟨hm, f, hf, hw⟩ := ht
      rintro g u hg hu
      obtain rfl := Option.some.inj (hf.symm.trans hg)
      exact Frame.isEntry_of_waits hm hf (htails ▸ hw) hu
    | step => trivial

/-- The function that calls its argument goes on behind the call when its coroutine is resumed again. -/
theorem reentry_at_entries_paused :
    let drive (run : Run) : Action (Bool × List Value) := do resume run (← pauseApart run) [.bool true]
    (∃ vs m, drive (run pauseHost 9) Machine.bare = .ok (true, vs) m) ∧
      Always pauseHost Moment.EntersAtEntry 9 drive Machine.bare := by
  intro drive
  have hhosts (name : String) : Routine Prototype.relay.Contains true (pauseHost name) := .yieldValues _
  have hdrive : Routine Prototype.relay.Contains true drive :=
    .bind ((Script.pauseApart Prototype.relay.contains_self).routine
      (R := ⟨Prototype.relay.Contains, .host, true, true⟩) rfl rfl fun _ => rfl) fun c _ => .resume c _
  refine ⟨?_, (reentry_at_entries Prototype.relay_isProgram hhosts Machine.bare_fresh hdrive 9).2 ?_⟩
  · have hresult : (match drive (run pauseHost 9) Machine.bare with
      | .ok (ok, _) _ => ok
      | .error _ _ => false) = true := by decide +kernel
    split at hresult
    · next ok vs m h => exact ⟨vs, m, hresult ▸ h⟩
    · cases hresult
  · refine always_not_tailYields Prototype.relay_isProgram (fun {q} hq w hw => ?_) hhosts hdrive
      (Machine.bare_fresh.sound _ _) 9
    rw [Prototype.eq_of_contains rfl hq] at hw
    obtain rfl | rfl := by simpa [Prototype.relay] using hw
    · decide
    · decide

end LuaMachine
