import LuaMachine.Proofs.FunctionCall

/-!
A step of the frame on top: it performs one operation, after which the frame goes on at an
instruction, waits for a frame above it, or is gone.
-/

namespace LuaMachine

namespace Setting

variable (S : Setting)

/-- Where an operation leaves the frame that performed it and those below; the top was at `top`. -/
def Flowed (fs : List Frame) (f : Frame) (op : Operation) (top : Nat) : Flow → Machine → Prop
  | .leave, m =>
    (∃ a b c, op = .call a b c ∧
      S.Pushed (fs ++ [f]) (f.base + a) (if c = 0 then none else some (c - 1)) m) ∨
    S.Pushed fs f.slot f.wanted m ∨ m.running.frames.toList = fs ∧ m.Topped f.slot f.wanted
  | _, m => m.running.frames.toList = fs ++ [f] ∧ (∀ a b, op ≠ .ret a b) ∧
    op.Lands f top m.running.top

theorem Flowed.stays {S : Setting} {fs : List Frame} {f : Frame} {op : Operation} {top : Nat}
    {flow : Flow} {m : Machine} (hflow : flow ≠ .leave) (hop : ∀ a b, op ≠ .ret a b)
    (h : m.running.frames.toList = fs ++ [f]) (hlands : op.Lands f top m.running.top) :
    S.Flowed fs f op top flow m := by
  cases flow <;> first | exact absurd rfl hflow | exact ⟨h, hop, hlands⟩

end Setting

open Setting

variable {S : Setting} {m : Machine}

section

variable (hS : S.Valid) {runl runr : Run} (hrun : S.Engines runl runr) {embedding : Embedding}
  (hembedding : ∀ name, Routine S.program true (embedding name))

include hS hrun hembedding

theorem perform_alike (hm : S.Sound m) {fs : List Frame} {f : Frame}
    (hfs : m.running.frames.toList = fs ++ [f]) {w : Window} (hbase : w.base = f.base)
    (hlua : f.isLua = true) {op : Operation}
    (hclosure : ∀ a child cs, op = .closure a child cs → ∀ p,
      w.closure.proto.children[child]? = some p →
        S.program p ∧ cs.length = p.upvalueCount.toNat) :
    S.Alike id (perform embedding runl w op (S.left m)) (perform embedding runr w op m)
      (S.Results m fs.length (S.Flowed fs f op m.running.top) fun m' => ∃ r wanted,
        op.awaits = some (r, wanted) ∧ Yielding (fs ++ [f]) (f.base + r) wanted m') := by
  have hd : fs.length ≤ m.depth := length_le_depth (hfs ▸ List.prefix_append ..)
  have hlength : fs.length ≤ (fs ++ [f]).length := by simp
  by_cases hop : op.isControl = true
  · cases op with
    | call a b c =>
      refine Alike.results_bind hd ((Routine.callArgs (k := false) a b).alike hS hrun hm)
        fun n m₁ _ h₁ => ?_
      have hfs₁ := h₁.toList_frames hfs
      rw [← bind_pure_comp, ← bind_pure_comp]
      refine ((startCall_alike hS hrun hembedding h₁.sound _ n _ hfs₁).imp fun hr =>
        (hr.lower hlength).imp_yield fun _ hy => ⟨a, _, rfl, hbase ▸ hy⟩).bind_results
          (by rw [hfs₁, List.take_left]) fun o m₂ hm₂ hstarted => ?_
      rw [hbase] at hstarted
      cases o with
      | done =>
        obtain ⟨hfs₂, htop⟩ := hstarted
        refine ⟨hfs₂ ▸ List.prefix_append .., .pure ⟨hm₂, .refl m₂, hfs₂, fun _ _ => nofun, ?_⟩⟩
        exact Operation.lands_of_topped rfl htop (topFrame?_of_append hfs₂) hlua
      | pushed =>
        refine ⟨?_, .pure ⟨hm₂, .refl m₂, .inl ⟨a, b, c, rfl, hstarted⟩⟩⟩
        obtain ⟨g, hg, -⟩ := hstarted
        rw [hg, List.append_assoc]
        exact List.prefix_append ..
    | tailCall a b =>
      refine Alike.results_bind hd ((Routine.callArgs (k := false) a b).alike hS hrun hm)
        fun n m₁ _ h₁ => ?_
      have hfs₁ := h₁.toList_frames hfs
      rw [← bind_pure_comp, ← bind_pure_comp]
      refine ((startTailCall_alike hS hrun hembedding h₁.sound _ n hfs₁).imp fun hr =>
        hr.imp_yield fun _ hy => ⟨a, none, rfl, hbase ▸ hy⟩).bind_results
          (by rw [hfs₁, List.take_left]) fun o m₂ hm₂ hstarted => ?_
      rw [hbase] at hstarted
      cases o with
      | done =>
        obtain ⟨hfs₂, htop⟩ := hstarted
        refine ⟨hfs₂ ▸ List.prefix_append .., .pure ⟨hm₂, .refl m₂, hfs₂, fun _ _ => nofun, ?_⟩⟩
        exact Operation.lands_of_topped rfl htop (topFrame?_of_append hfs₂) hlua
      | pushed =>
        refine ⟨?_, .pure ⟨hm₂, .refl m₂, .inr (.inl hstarted)⟩⟩
        obtain ⟨g, hg, -⟩ := hstarted
        exact hg ▸ List.prefix_append ..
    | ret a b =>
      refine Alike.results_bind hd ((Plain.view (·.running.top) fun _ => rfl).alike hm)
        fun top m₁ _ h₁ => ?_
      have hfs₁ := h₁.toList_frames hfs
      refine Alike.results_bind (length_le_depth (hfs₁ ▸ List.prefix_append ..))
        ((Plain.primitive (.closeUpvalues w.base)).alike h₁.sound) fun _ m₂ _ h₂ => ?_
      have hfs₂ := h₂.toList_frames hfs₁
      refine ((leaveFrame_alike h₂.sound _ _).imp fun hr => (Results.of_popped hfs₂ hr).and_ok
        fun _ _ => leaveFrame_topped (topFrame?_of_append hfs₂)).bind_results
          (by rw [hfs₂, List.take_left]) fun _ m₃ hm₃ hleft => ⟨hleft.1 ▸ List.prefix_rfl, ?_⟩
      exact .pure ⟨hm₃, .refl m₃, .inr (.inr hleft)⟩
    | _ => simp [Operation.isControl] at hop
  · have hroutine := (Routine.perform (k := false) embedding (Bool.not_eq_true _ ▸ hop) hclosure).alike
      hS hrun hm
    refine hroutine.imp fun hr => ?_
    cases hflow : perform embedding runr w op m with
    | ok flow m' =>
      rw [hflow] at hr
      have hwithin := perform_within embedding runr w op 0 _ _ _ hflow
      have hfs' := hr.toList_frames hfs
      refine ⟨hr.sound, hr.kept, .stays ?_ ?_ hfs' ?_⟩
      · rintro rfl
        exact hop hwithin
      · rintro a b rfl
        exact hop rfl
      · exact perform_lands (Bool.not_eq_true _ ▸ hop) hflow (topFrame?_of_append hfs') hbase
    | error e m' =>
      rw [hflow] at hr
      exact hr.imp_right fun h => (h.lower hd).imp fun _ hy => absurd hy.1 Bool.false_ne_true

end

/-! What the frame on top performs next -/

namespace Activation

/-- The next operation is a tail call. -/
def TailCalls (a : Activation) : Prop := ∃ b c after, a.fetch? = some ⟨.tailCall b c, after⟩

/-- The place `pc` follows the next operation, or is where it jumps or skips to. -/
def LeadsTo (a : Activation) (pc : Nat) : Prop :=
  ∃ f, a.fetch? = some f ∧ (pc = f.after ∨ pc ∈ f.operation.targets a.pc)

end Activation

namespace Setting

variable {depth : Nat} {a : Activation} {below : List Frame} {f : Frame} {c : ClosureId}

theorem AtWork.proto_eq (h : S.AtWork depth a m below f c) :
    a.window.closure.proto = (m.heap.closure c).proto := by
  change a.window.closure.erase.proto = (m.heap.closure c).erase.proto
  rw [h.window]

theorem AtWork.portable (h : S.AtWork depth a m below f c) : a.Portable := by
  unfold Activation.Portable
  rcases h.engine with he | ⟨u, he, -⟩ <;> rw [he] <;> trivial

theorem AtWork.program (hm : S.Sound m) (h : S.AtWork depth a m below f c) :
    S.program (m.heap.closure c).proto :=
  (hm.closures _ (Heap.closure_mem h.closure_lt)).program

theorem leftActivation_interpreter (w : Window) (pc : Nat) :
    S.leftActivation ⟨w, .interpreter, pc⟩ =
      ⟨if S.erased then w.erase else w, .interpreter, pc⟩ := by
  unfold leftActivation
  split <;> rfl

/-- Where code that ends in an operand word was run off, which it cannot be where units are erased,
nothing is fetched. -/
def OffCode (S : Setting) (a : Activation) : Prop :=
  (S.erased = false ∧ a.fetch? = none) ∧ a.RanOff

/-- Both sides perform the same operation next and go on at the same place. Only a `RETURN`, or code
that ends in an operand word, has no instruction there. -/
theorem AtWork.fetches (hS : S.Valid) (hm : S.Sound m) (h : S.AtWork depth a m below f c)
    {p : Prototype} (hp : (m.heap.closure c).proto = p) (hi : p.IsInstruction a.pc) :
    ∃ word op after, p.code[a.pc]? = some word ∧ (⟨word⟩ : Instruction).opcode? = some op ∧
      a.fetch? = some ⟨p.operationAt a.pc word op, after⟩ ∧
      (S.leftActivation a).fetch? = some ⟨p.operationAt a.pc word op, after⟩ ∧
      (op ≠ .ret → p.IsInstruction after ∧ after = a.pc + 1 + p.operandCount word ∨
        S.OffCode { a with pc := after }) := by
  have hprogram := hp ▸ h.program hm
  have hverified := hS.program.verified hprogram
  obtain ⟨l, hl⟩ := hverified.exists_lower
  have hlowers := Prototype.lowersTo_of_lower hl
  have hproto := h.proto_eq.trans hp
  have hengine := h.engine
  obtain ⟨w, engine, pc⟩ := a
  obtain ⟨word, hw⟩ := hi.exists_word
  obtain ⟨op, hop, -⟩ := hlowers.instruction hi hw
  have herased : (if S.erased then w.erase else w).closure.proto = p := by
    split
    · exact hproto
    · exact hproto
  -- where units are erased no code ends in a batch word, so nothing but a `RETURN` comes last
  have hnext (he : S.erased = true) (hne : op ≠ .ret) : pc + 1 + p.operandCount word < p.code.size :=
    hverified.checked.next_lt (hS.closed he p hprogram) hi hw hop hne
  have hbatch (heq : pc + 1 + p.operandCount word = p.code.size) (hne : op ≠ .ret) :
      w.closure.proto.EndsInBatch := by
    rw [show w.closure.proto = p from hproto]
    by_contra hbatch
    exact (hverified.checked.next_lt hbatch hi hw hop hne).ne heq
  rcases hengine with rfl | ⟨u, rfl, hu⟩
  · refine ⟨word, op, pc + 1 + p.operandCount word, hw, hop,
      Activation.fetch?_interpreter hlowers hproto hi hw hop, ?_, fun hne => ?_⟩
    · rw [leftActivation_interpreter]
      exact Activation.fetch?_interpreter hlowers herased hi hw hop
    · rcases (hlowers.operandCount_le hi hw).lt_or_eq with hlt | heq
      · exact .inl ⟨hi.next hw hlt, rfl⟩
      · refine .inr ⟨⟨?_, Activation.fetch?_interpreter_eq_none hproto heq.ge⟩, hbatch heq hne, ?_⟩
        · exact Bool.eq_false_iff.2 fun he => (hnext he hne).ne heq
        · exact heq.trans (congrArg (·.code.size) (Eq.symm hproto))
  · rw [hp] at hu
    have hlowers := Prototype.lowersTo_of_lower hu.lower
    have hfetch := Activation.fetch?_threaded (w := w) hlowers hi hw hop
    refine ⟨word, op, u.lowered.after pc (p.operationAt pc word op), hw, hop, hfetch, ?_,
      fun hne => ?_⟩
    · cases he : S.erased with
      | false => simpa [leftActivation, he] using hfetch
      | true =>
        have hafter : u.lowered.after pc (p.operationAt pc word op) =
            pc + 1 + p.operandCount word := by
          by_cases hne : op = .ret
          · subst hne
            simp [Prototype.operandCount, hop, Prototype.operationAt, Operation.ofInstruction,
              Lowered.after]
          · exact hlowers.after_eq hi hw hop (hnext he hne)
        simp only [leftActivation, he, ↓reduceIte, hafter]
        exact Activation.fetch?_interpreter (w := w.erase) hlowers hproto hi hw hop
    · rcases (hlowers.operandCount_le hi hw).lt_or_eq with hlt | heq
      · rw [hlowers.after_eq hi hw hop hlt]
        exact .inl ⟨hi.next hw hlt, rfl⟩
      · refine .inr ⟨⟨?_, Activation.fetch?_threaded_eq_none
          (hlowers.after_of_last hi hw hop heq.symm)⟩, hbatch heq hne, ?_⟩
        · exact Bool.eq_false_iff.2 fun he => (hnext he hne).ne heq
        · obtain ⟨rfl, hc, hlast⟩ := hverified.checked.batch_of_last hi hw hop hne heq
          rw [hlowers.after_of_batch hi hw hop hc hlast, hlast]
          exact congrArg (·.code.size) (Eq.symm hproto)

/-- Where a step of an activation leaves the machine: with the frame at work, or with frames that
wait. -/
def Stepped (S : Setting) (depth : Nat) (a : Activation) (m : Machine) :
    Option Activation → Machine → Prop
  | some a', m' => m'.running.frames.toList.take depth = m.running.frames.toList.take depth ∧
      a.LeadsTo a'.pc ∧ ∃ below f c, S.AtWork depth a' m' below f c
  | none, m' => m'.running.frames.toList.take depth = m.running.frames.toList.take depth ∧
      S.Waiting depth m'

/-- The outcome of a step. A yield out of a tail call is one of them, though not always allowed. -/
def Steps (S : Setting) (depth : Nat) (a : Activation) (m : Machine) :
    Outcome (Option Activation) → Prop :=
  S.Results m depth (S.Stepped depth a m) fun m' =>
    S.tails = false ∧ a.TailCalls ∨ S.SuspendedAbove depth m m'

/-- A new frame waits over frames that wait. -/
theorem Pushed.waiting {fs : List Frame} {slot : Nat} {wanted : Option Nat}
    (h : S.Pushed fs slot wanted m) (hd : depth ≤ fs.length)
    (hwaits : ∀ g ∈ fs.drop depth, g.Waits S.tails m.heap)
    (hlinked : ∀ g : Frame, g.slot = slot → g.wanted = wanted →
      Frame.Linked m.heap (fs.drop depth ++ [g])) : S.Waiting depth m := by
  obtain ⟨g, hframes, hg, hslot, hwanted, htop⟩ := h
  have hdrop : m.running.frames.toList.drop depth = fs.drop depth ++ [g] := by
    rw [hframes, List.drop_append_of_le_length hd]
  refine ⟨fun g' hg' => ?_, hdrop ▸ hlinked g hslot hwanted, fun _ f c hf _ => ?_⟩
  · rw [hdrop] at hg'
    rcases List.mem_append.1 hg' with hg' | hg'
    · exact hwaits g' hg'
    · exact List.mem_singleton.1 hg' ▸ hg
  · obtain rfl := Option.some.inj (hf.symm.trans (topFrame?_of_append hframes))
    exact .inl htop

theorem toList_frames_atPc {fs : List Frame} (hfs : m.running.frames.toList = fs ++ [f]) (pc : Nat) :
    (m.atPc pc).running.frames.toList = fs ++ [{ f with pc := pc }] := by
  have hframes : m.running.frames = fs.toArray.push f := Array.toList_inj.1 (by simpa using hfs)
  have hpush : (fs.toArray.push f).modify fs.length ({ · with pc := pc }) =
      fs.toArray.push { f with pc := pc } := by
    refine Array.ext (by simp) fun i hi hi' => ?_
    grind
  change (m.running.frames.modify (m.running.frames.size - 1) ({ · with pc := pc })).toList = _
  rw [hframes, Array.size_push, Nat.add_sub_cancel, List.size_toArray, hpush]
  simp

theorem sound_atPc (hm : S.Sound m) (pc : Nat) : S.Sound (m.atPc pc) := by
  refine ⟨hm.closures, hm.caches, hm.coroutines, fun g hg => ?_, hm.parked⟩
  obtain ⟨i, hi, rfl⟩ := Array.mem_iff_getElem.1 hg
  have hi' : i < m.running.frames.size := by
    simpa only [Machine.atPc, Machine.modifyRunning, Strand.modifyFrames, Array.size_modify] using hi
  have hsound := hm.running _ (Array.getElem_mem hi')
  simp only [Machine.atPc, Machine.modifyRunning, Strand.modifyFrames, Array.getElem_modify]
  split
  · intro c hc
    obtain ⟨hlt, hfits, hunit⟩ := hsound c hc
    exact ⟨hlt, ⟨hfits.slot, hfits.top, hfits.window⟩, hunit⟩
  · exact hsound

theorem kept_atPc (m : Machine) (pc : Nat) : m.Kept (m.atPc pc) := ⟨.refl _, rfl, le_rfl, .refl _⟩

theorem left_atPc (m : Machine) (pc : Nat) : (S.left m).atPc pc = S.left (m.atPc pc) := by
  refine left_comm (f := (·.atPc pc)) (fun m => m.erase_modifyRunning fun s => ?_) m
  simp only [Strand.erase, Strand.modifyFrames, Array.size_map, Strand.mk.injEq, true_and, and_true]
  refine Array.ext (by simp) fun i hi hi' => ?_
  simp only [Array.getElem_modify, Array.getElem_map]
  split <;> rfl

theorem leftActivation_pc (a : Activation) : (S.leftActivation a).pc = a.pc := by
  unfold leftActivation
  split <;> rfl

theorem leftActivation_withPc (a : Activation) (pc : Nat) :
    S.leftActivation { a with pc := pc } = { S.leftActivation a with pc := pc } := by
  unfold leftActivation
  split <;> rfl

theorem perform_leftActivation (embedding : Embedding) (run : Run) (a : Activation)
    (op : Operation) :
    perform embedding run (S.leftActivation a).window op = perform embedding run a.window op := by
  unfold leftActivation
  split
  · exact perform_erase embedding run a.window op
  · rfl

/-- The frame goes on at another place. -/
theorem AtWork.goOn (h : S.AtWork depth a m below f c) {m' : Machine} (hk : m.Kept m') {pc pc' : Nat}
    (hframes : m'.running.frames.toList = below ++ [{ f with pc := pc' }])
    (hplace : (m.heap.closure c).proto.IsInstruction pc ∧
        f.Poised (m.heap.closure c).proto pc m'.running.top ∨ S.OffCode { a with pc := pc }) :
    S.AtWork depth { a with pc := pc } m' below { f with pc := pc' } c := by
  obtain ⟨hlt, herase⟩ := hk.closures c h.closure_lt
  have hproto := hk.closures.proto h.closure_lt
  refine ⟨hframes, h.depth_le, fun g hg => (h.waiting g hg).mono hk.closures,
    (h.linked.mono hk.closures).replace (g := { f with pc := pc' }) rfl rfl, h.closure, hlt, h.base, h.window.trans herase.symm,
    ?_, ?_, ?_⟩
  · rw [hproto]
    exact hplace.imp And.left And.left
  · rw [hproto]
    exact hplace.imp_right And.right
  · rw [hproto]
    exact h.engine

theorem AtWork.take_eq (h : S.AtWork depth a m below f c) {m' : Machine} {fs : List Frame}
    (hframes : m'.running.frames.toList = below ++ fs) :
    m'.running.frames.toList.take depth = m.running.frames.toList.take depth := by
  rw [hframes, h.frames, List.take_append_of_le_length h.depth_le,
    List.take_append_of_le_length h.depth_le]

/-- A frame that has made a call waits behind it. -/
theorem AtWork.waits (hS : S.Valid) (hm : S.Sound m) (h : S.AtWork depth a m below f c)
    {h' : Heap} (hx : m.heap.Extends h') {p : Prototype} (hp : (m.heap.closure c).proto = p)
    (hi : p.IsInstruction a.pc) {word : UInt32} {op : Opcode} (hw : p.code[a.pc]? = some word)
    (hop : (⟨word⟩ : Instruction).opcode? = some op) (hcalls : op.Calls S.tails) :
    ({ f with pc := a.pc + 1 } : Frame).Waits S.tails h' := by
  have hchecked := (hS.program.verified (hp ▸ h.program hm)).checked
  refine ⟨c, h.closure, (hx c h.closure_lt).1, ?_⟩
  rw [hx.proto h.closure_lt, hp]
  refine ⟨hchecked.lt_of_opcode hw hop ?_, .inr ⟨a.pc, word, op, rfl, hi, hw, hop, hcalls⟩⟩
  rintro rfl
  rcases hcalls with h | ⟨-, h⟩ <;> simp at h

/-- It waits for the frame above it. -/
theorem AtWork.awaits (h : S.AtWork depth a m below f c) {h' : Heap} (hx : m.heap.Extends h')
    {p : Prototype} (hp : (m.heap.closure c).proto = p) (hi : p.IsInstruction a.pc) {word : UInt32}
    {op : Opcode} (hw : p.code[a.pc]? = some word)
    (hop : (⟨word⟩ : Instruction).opcode? = some op) {r : Nat} {wanted : Option Nat}
    (hawaits : (p.operationAt a.pc word op).awaits = some (r, wanted)) :
    ({ f with pc := a.pc + 1 } : Frame).Awaits h' (f.base + r) wanted := by
  refine ⟨c, a.pc, _, r, h.closure, (hx c h.closure_lt).1, ?_, hawaits, rfl⟩
  rw [hx.proto h.closure_lt, hp]
  refine ⟨hi, word, op, hw, hop, rfl, ?_⟩
  cases hop' : p.operationAt a.pc word op with
  | call x y z =>
    obtain rfl := Prototype.operationAt_eq_call hop'
    simp [Prototype.operandCount, hop]
  | tailCall x y =>
    obtain rfl := Prototype.operationAt_eq_tailCall hop'
    simp [Prototype.operandCount, hop]
  | _ =>
    rw [hop'] at hawaits
    cases hawaits

/-- What the outcome of an operation makes of the frame at work. -/
theorem AtWork.stepped (hS : S.Valid) (hm : S.Sound m) (h : S.AtWork depth a m below f c)
    {p : Prototype} (hp : (m.heap.closure c).proto = p) (hi : p.IsInstruction a.pc) {word : UInt32}
    {op : Opcode} (hw : p.code[a.pc]? = some word)
    (hop : (⟨word⟩ : Instruction).opcode? = some op) {after : Nat}
    (hfetch : a.fetch? = some ⟨p.operationAt a.pc word op, after⟩)
    (hafter : op ≠ .ret → p.IsInstruction after ∧ after = a.pc + 1 + p.operandCount word ∨
      S.OffCode { a with pc := after })
    (htargets : ∀ t ∈ (p.operationAt a.pc word op).targets a.pc, p.IsInstruction t) {m' : Machine}
    (hk : m.Kept m') {flow : Flow}
    (hflow : S.Flowed below { f with pc := a.pc + 1 } (p.operationAt a.pc word op) m.running.top
      flow m')
    (hwithin : flow.Within (p.operationAt a.pc word op) a.pc)
    (hnext : flow = .next → (p.operationAt a.pc word op).fallsThrough = true) :
    S.Stepped depth a m ((flow.target a.pc after).map fun pc => { a with pc := pc }) m' := by
  have hbelow (g : Frame) (hg : g ∈ below.drop depth) : g.Waits S.tails m'.heap :=
    (h.waiting g hg).mono hk.closures
  have hlinked := h.linked.mono hk.closures
  have hpoised : f.Poised p a.pc m.running.top := by
    have hoff : ¬ a.RanOff := fun hoff => hoff.not_isInstruction ((h.proto_eq.trans hp).symm ▸ hi)
    exact hp ▸ (h.poised.resolve_right hoff).2
  have hgoOn (pc : Nat) (hleads : a.LeadsTo pc)
      (hframes : m'.running.frames.toList = below ++ [{ f with pc := a.pc + 1 }])
      (hplace : p.IsInstruction pc ∧ f.Poised p pc m'.running.top ∨ S.OffCode { a with pc := pc }) :
      S.Stepped depth a m (some { a with pc := pc }) m' := by
    rw [← hp] at hplace
    exact ⟨h.take_eq hframes, hleads, below, _, c, h.goOn hk hframes hplace⟩
  -- wherever the frame goes on, the top is where the operation landed it
  have hdest (pc : Nat) (hpc : p.IsInstruction pc)
      (hleads : (p.operationAt a.pc word op).Leads a.pc (a.pc + 1 + p.operandCount word) pc)
      (hlands : (p.operationAt a.pc word op).Lands f m.running.top m'.running.top) :
      p.IsInstruction pc ∧ f.Poised p pc m'.running.top :=
    ⟨hpc, hpoised.step ⟨hi, word, op, hw, hop, rfl, rfl⟩ hleads hlands⟩
  cases flow with
  | next =>
    obtain ⟨hframes, hret, hlands⟩ := hflow
    refine hgoOn after ⟨_, hfetch, .inl rfl⟩ hframes ((hafter ?_).imp_left fun ⟨hpc, heq⟩ => ?_)
    · rintro rfl
      exact hret _ _ rfl
    · exact hdest after hpc (.inl ⟨hnext rfl, heq⟩) hlands
  | skip =>
    obtain ⟨hframes, -, hlands⟩ := hflow
    exact hgoOn (a.pc + 2) ⟨_, hfetch, .inr hwithin⟩ hframes
      (.inl (hdest _ (htargets _ hwithin) (.inr hwithin) hlands))
  | jump t =>
    obtain ⟨hframes, -, hlands⟩ := hflow
    exact hgoOn t ⟨_, hfetch, .inr hwithin⟩ hframes
      (.inl (hdest _ (htargets t hwithin) (.inr hwithin) hlands))
  | leave =>
    -- a call put a frame on top, a tail call replaced the one at work, or it returned
    rcases hflow with ⟨x, y, z, hcall, hpushed⟩ | hpushed | ⟨hframes, htop⟩
    · have hwaits := h.waits hS hm hk.closures hp hi hw hop
        (.inl (Prototype.operationAt_eq_call hcall))
      have hawaits := h.awaits hk.closures hp hi hw hop (congrArg Operation.awaits hcall)
      have hdrop : (below ++ [{ f with pc := a.pc + 1 }]).drop depth =
          below.drop depth ++ [{ f with pc := a.pc + 1 }] :=
        List.drop_append_of_le_length h.depth_le
      refine ⟨?_, hpushed.waiting (by simp [h.depth_le.trans]) (fun g hg => ?_) ?_⟩
      · obtain ⟨g, hframes, -⟩ := hpushed
        rw [List.append_assoc] at hframes
        exact h.take_eq hframes
      · rw [hdrop] at hg
        rcases List.mem_append.1 hg with hg | hg
        · exact hbelow g hg
        · exact List.mem_singleton.1 hg ▸ hwaits
      · intro g hslot hwanted
        rw [hdrop]
        apply (hlinked.replace (g := { f with pc := a.pc + 1 }) rfl rfl).push
        rw [hslot, hwanted]
        exact hawaits
    · refine ⟨?_, hpushed.waiting h.depth_le hbelow fun g => hlinked.replace⟩
      obtain ⟨g, hframes, -⟩ := hpushed
      exact h.take_eq hframes
    · refine ⟨?_, waiting_of_topped hframes hbelow hlinked htop⟩
      rw [← List.append_nil below] at hframes
      exact h.take_eq hframes

/-- A host function called by the frame at work has yielded. -/
theorem AtWork.suspended (hS : S.Valid) (hm : S.Sound m) (h : S.AtWork depth a m below f c)
    {p : Prototype} (hp : (m.heap.closure c).proto = p) (hi : p.IsInstruction a.pc) {word : UInt32}
    {op : Opcode} (hw : p.code[a.pc]? = some word)
    (hop : (⟨word⟩ : Instruction).opcode? = some op) {after : Nat}
    (hfetch : a.fetch? = some ⟨p.operationAt a.pc word op, after⟩) {m' : Machine}
    (hk : m.Kept m') {r : Nat} {wanted : Option Nat}
    (hcall : (p.operationAt a.pc word op).awaits = some (r, wanted))
    (hy : Yielding (below ++ [{ f with pc := a.pc + 1 }]) (f.base + r) wanted m') :
    S.tails = false ∧ a.TailCalls ∨ S.SuspendedAbove depth m m' := by
  obtain ⟨hboundaries, host, hframes, hslot, hwanted⟩ := hy
  have hsuspended (hcalls : op.Calls S.tails) : S.SuspendedAbove depth m m' := by
    refine ⟨hboundaries, below.drop depth ++ [{ f with pc := a.pc + 1 }] ++ [host], ?_,
      below.drop depth ++ [{ f with pc := a.pc + 1 }], host, rfl, fun g hg => ?_, ?_⟩
    · rw [h.frames, List.take_append_of_le_length h.depth_le, ← List.append_assoc,
        ← List.append_assoc, List.take_append_drop, hframes]
    · rcases List.mem_append.1 hg with hg | hg
      · exact (h.waiting g hg).mono hk.closures
      · exact List.mem_singleton.1 hg ▸ h.waits hS hm hk.closures hp hi hw hop hcalls
    · apply ((h.linked.mono hk.closures).replace (g := { f with pc := a.pc + 1 }) rfl rfl).push
      rw [hslot, hwanted]
      exact h.awaits hk.closures hp hi hw hop hcall
  cases heq : p.operationAt a.pc word op with
  | call x y z => exact .inr (hsuspended (.inl (Prototype.operationAt_eq_call heq)))
  | tailCall x y =>
    cases ht : S.tails with
    | false => exact .inl ⟨rfl, x, y, after, heq ▸ hfetch⟩
    | true => exact .inr (hsuspended (.inr ⟨ht, Prototype.operationAt_eq_tailCall heq⟩))
  | _ =>
    rw [heq] at hcall
    cases hcall

end Setting

section

variable (hS : S.Valid) {runl runr : Run} (hrun : S.Engines runl runr) {embedding : Embedding}
  (hembedding : ∀ name, Routine S.program true (embedding name)) {depth : Nat} {a : Activation}
  {below : List Frame} {f : Frame} {c : ClosureId}

/-- Where nothing is fetched both sides fail. -/
theorem step_alike_of_fetch_none (hm : S.Sound m) (h : S.AtWork depth a m below f c)
    (he : S.erased = false) (hfetch : a.fetch? = none) (runl runr : Run) :
    S.Alike (Option.map S.leftActivation) (step embedding runl (S.leftActivation a) (S.left m))
      (step embedding runr a m) (S.Steps depth a m) := by
  have hleft (m : Machine) : S.left m = m := by simp [left, he]
  have hactivation : S.leftActivation a = a := by simp [leftActivation, he]
  obtain ⟨e, m', hstep, hm'⟩ := Activation.step_of_fetch_none embedding h.portable hfetch m
  rw [hleft, hactivation, hstep, hstep]
  refine .inr ⟨by simp [Outcome.map, hleft], .inr ?_⟩
  have htake : m.running.frames.toList.take depth = below.take depth := by
    rw [h.frames, List.take_append_of_le_length h.depth_le]
  rcases hm' with rfl | rfl
  · exact ⟨hm, .refl _, List.take_prefix _ _, by simp⟩
  · refine ⟨sound_atPc hm _, kept_atPc m _, ?_, by simp⟩
    rw [htake, toList_frames_atPc h.frames]
    exact (List.take_prefix _ _).trans (List.prefix_append _ _)

include hS hrun hembedding

theorem step_alike (hm : S.Sound m) (h : S.AtWork depth a m below f c) :
    S.Alike (Option.map S.leftActivation) (step embedding runl (S.leftActivation a) (S.left m))
      (step embedding runr a m) (S.Steps depth a m) := by
  rcases h.place with hi | ⟨he, hfetch⟩
  swap
  · exact step_alike_of_fetch_none hm h he hfetch runl runr
  obtain ⟨p, hp⟩ : ∃ p, (m.heap.closure c).proto = p := ⟨_, rfl⟩
  rw [hp] at hi
  obtain ⟨word, op, after, hw, hop, hfetch, hfetchl, hafter⟩ := h.fetches hS hm hp hi
  obtain ⟨l, hl⟩ := (hS.program.verified (hp ▸ h.program hm)).exists_lower
  have hlowers := Prototype.lowersTo_of_lower hl
  have hfs := toList_frames_atPc h.frames (a.pc + 1)
  have hclosure (i child : Nat) (cs : List Capture)
      (heq : p.operationAt a.pc word op = .closure i child cs) (q : Prototype)
      (hq : a.window.closure.proto.children[child]? = some q) :
      S.program q ∧ cs.length = q.upvalueCount.toNat := by
    rw [h.proto_eq, hp] at hq
    exact ⟨hS.program.child (hp ▸ h.program hm) (List.mem_of_getElem? hq),
      Prototype.length_captures hop (hlowers.operandCount_le hi hw) heq hq⟩
  have hperform := perform_alike hS hrun hembedding (sound_atPc hm (a.pc + 1)) hfs h.base
    (Frame.isLua_of_closure? h.closure) hclosure
  rw [Activation.step_of_fetch embedding runl hfetchl, Activation.step_of_fetch embedding runr hfetch,
    leftActivation_pc, left_atPc, perform_leftActivation]
  rcases hperform with ⟨m', hl⟩ | ⟨hl, hr⟩
  · exact .inl ⟨m', by rw [hl]⟩
  rw [hl]
  right
  cases hresult : perform embedding runr a.window (p.operationAt a.pc word op)
      (m.atPc (a.pc + 1)) with
  | ok flow m' =>
    rw [hresult] at hr
    obtain ⟨hm', hk, hflow⟩ := hr
    refine ⟨?_, hm', (kept_atPc m _).trans hk, ?_⟩
    · simp only [Outcome.map, id_eq, Option.map_map, Function.comp_def, leftActivation_withPc]
    · exact h.stepped hS hm hp hi hw hop hfetch hafter
        (fun t => hlowers.isInstruction_target hi hw hop) ((kept_atPc m _).trans hk) hflow
        (perform_within embedding runr _ _ _ _ _ _ hresult) fun hnext =>
          fallsThrough_of_next (hnext ▸ hresult)
  | error e m' =>
    rw [hresult] at hr
    refine ⟨rfl, hr.imp_right fun hs => ?_⟩
    have hk := (kept_atPc m (a.pc + 1)).trans hs.kept
    refine ⟨hs.sound, hk, ?_, fun he => ?_⟩
    · have hframes := hs.frames
      rw [hfs, List.take_left] at hframes
      rw [h.frames, List.take_append_of_le_length h.depth_le]
      exact (List.take_prefix _ _).trans hframes
    · obtain ⟨r, wanted, hcall, hy⟩ := hs.yield he
      exact h.suspended hS hm hp hi hw hop hfetch hk hcall hy

end

end LuaMachine
