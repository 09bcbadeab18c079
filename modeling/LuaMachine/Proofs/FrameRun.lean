import LuaMachine.Proofs.Action
import LuaMachine.Proofs.LoweredCode
import LuaMachine.Session

/-!
The run of one frame, from where it is taken up until another frame is on top. Interpreted and
compiled, a frame performs the same operations and comes to the same end.
-/

namespace LuaMachine

/-- A jump or a skip goes to one of the targets of the operation, and only calls and returns make
another frame run. -/
def Flow.Within (op : Operation) (pc : Nat) : Flow → Prop
  | next => True
  | leave => op.isControl = true
  | skip => pc + 2 ∈ op.targets pc
  | jump t => t ∈ op.targets pc

theorem testFlow_within {op : Operation} {pc : Nat} (h : pc + 2 ∈ op.targets pc) (b : Bool)
    (n : Nat) : (testFlow b n).Within op pc := by
  unfold testFlow
  split
  · exact h
  · trivial

open LuaMachine.Action in
theorem perform_within (embedding : Embedding) (run : Run) (w : Window) (op : Operation) (pc : Nat) :
    Returns (Flow.Within op pc) (perform embedding run w op) := by
  cases op with
  | loadBool a b skip =>
    refine .bind fun _ => .pure ?_
    cases skip <;> simp [Flow.Within, Operation.targets]
  | jmp t => exact .pure (by simp [Flow.Within, Operation.targets])
  | eq a b c | lt a b c | le a b c =>
    refine .bind fun _ => .bind fun _ => .bind fun _ => .pure (testFlow_within ?_ _ _)
    simp [Operation.targets, Operation.isTest]
  | test a c =>
    refine .bind fun _ => .pure (testFlow_within ?_ _ _)
    simp [Operation.targets, Operation.isTest]
  | testSet a b c =>
    refine .bind fun v => ?_
    split
    · exact .bind fun _ => .pure trivial
    · exact .pure (by simp [Flow.Within, Operation.targets, Operation.isTest])
  | call a b c =>
    refine .bind fun _ => .map fun o => ?_
    cases o
    · trivial
    · rfl
  | tailCall a b =>
    refine .bind fun _ => .map fun o => ?_
    cases o
    · trivial
    · rfl
  | ret a b => exact .bind fun _ => .bind fun _ => .bind fun _ => .pure rfl
  | forLoop a t =>
    refine .bind fun b => .pure ?_
    cases b <;> simp [Flow.Within, Operation.targets]
  | forPrep a t => exact .bind fun _ => .pure (by simp [Flow.Within, Operation.targets])
  | tForLoop a c =>
    refine .bind fun b => .pure ?_
    cases b <;> simp [Flow.Within, Operation.targets, Operation.isTest]
  | loadNil a b =>
    exact .ite (.bind fun _ => .bind fun _ => .pure trivial) (.bind fun _ => .pure trivial)
  | concat a b c =>
    exact .ite (.bind fun _ => .bind fun _ => .bind fun _ => .bind fun _ => .pure trivial)
      (.bind fun _ => .bind fun _ => .bind fun _ => .pure trivial)
  | setList a b n | close a | vararg a b => exact .bind fun _ => .pure trivial
  | move a b | loadK a k | newTable a b c | not a b | closure a i cs =>
    exact .bind fun _ => .bind fun _ => .pure trivial
  | getUpval a b | len a b | unm a b | getGlobal a k | setGlobal a k | setUpval a b =>
    exact .bind fun _ => .bind fun _ => .bind fun _ => .pure trivial
  | getTable a b c | setTable a b c | arith o a b c =>
    exact .bind fun _ => .bind fun _ => .bind fun _ => .bind fun _ => .pure trivial
  | self a b c =>
    exact .bind fun _ => .bind fun _ => .bind fun _ => .bind fun _ => .bind fun _ => .pure trivial
  | data => exact .throw

/-! What a frame performs next -/

/-- The machine with another saved place in the frame on top. -/
def Machine.atPc (m : Machine) (pc : Nat) : Machine :=
  m.modifyRunning fun s => s.modifyFrames fun frames =>
    frames.modify (frames.size - 1) fun f => { f with pc := pc }

@[simp]
theorem savePc_apply (pc : Nat) (m : Machine) : savePc pc m = .ok () (m.atPc pc) := rfl

namespace Activation

/-- The operation that an interpreted or threaded frame performs next, and the place after it. -/
def fetch? (a : Activation) : Option Fetched :=
  match a.engine with
  | .interpreter =>
    match a.window.closure.proto.code[a.pc]? with
    | none => none
    | some w =>
      match a.window.closure.proto.decode a.pc w with
      | .ok f => some f
      | .error _ => none
  | .threaded u =>
    match u.lowered.operations[a.pc]? with
    | none => none
    | some op => if op = .data then none else some ⟨op, u.lowered.after a.pc op⟩
  | .native .. => none

/-- Whether the frame is interpreted or threaded. -/
def Portable (a : Activation) : Prop :=
  match a.engine with
  | .native .. => False
  | _ => True

/-- The frame has run off code that ends in a batch word: it is behind that word, or at the word
where the code is threaded. -/
def RanOff (a : Activation) : Prop :=
  a.window.closure.proto.EndsInBatch ∧
    match a.engine with
    | .interpreter => a.pc = a.window.closure.proto.code.size
    | .threaded _ => a.pc + 1 = a.window.closure.proto.code.size
    | .native .. => False

theorem RanOff.not_isInstruction {a : Activation} (h : a.RanOff) :
    ¬ a.window.closure.proto.IsInstruction a.pc := by
  obtain ⟨w, engine, pc⟩ := a
  obtain ⟨⟨i, word, hi, hw, hlast, hop, hc⟩, hpc⟩ := h
  intro hinstruction
  cases engine with
  | interpreter => exact absurd hinstruction.lt hpc.not_lt
  | threaded u =>
    have hcount : w.closure.proto.operandCount word = 1 := by
      simp [Prototype.operandCount, hop, hc]
    obtain rfl : pc = i + 1 := Nat.succ.inj (hpc.trans hlast.symm)
    exact hinstruction.not_isOperand (hi.isOperand hw (i := 0) hcount.ge hlast.le)
  | native u code => exact hpc

section

variable {embedding : Embedding} {run : Run} {w : Window} {pc : Nat} {m : Machine}

theorem interpretStep_of_fetch {word : UInt32} {f : Fetched}
    (hw : w.closure.proto.code[pc]? = some word) (hd : w.closure.proto.decode pc word = .ok f) :
    interpretStep embedding run w pc = (do
      savePc (pc + 1)
      let flow ← perform embedding run w f.operation
      pure (flow.target pc f.after)) := by
  simp [interpretStep, hw, hd]

theorem threadedStep_of_fetch {l : Lowered} {op : Operation} (hop : l.operations[pc]? = some op)
    (hne : op ≠ .data) :
    threadedStep embedding run w l pc = (do
      savePc (pc + 1)
      let flow ← perform embedding run w op
      pure (flow.target pc (l.after pc op))) := by
  cases op <;> first | exact absurd rfl hne | simp [threadedStep, hop]

end

variable {a : Activation} (embedding : Embedding) (run : Run)

/-- A step performs what is fetched, after the place behind the instruction has been saved. -/
theorem step_eq_of_fetch {f : Fetched} (h : a.fetch? = some f) :
    step embedding run a = (do
      savePc (a.pc + 1)
      let flow ← perform embedding run a.window f.operation
      pure ((flow.target a.pc f.after).map fun pc => { a with pc := pc })) := by
  obtain ⟨w, engine, pc⟩ := a
  cases engine with
  | interpreter =>
    simp only [fetch?] at h
    cases hw : w.closure.proto.code[pc]? with
    | none => simp [hw] at h
    | some word =>
      cases hd : w.closure.proto.decode pc word with
      | error e => simp [hw, hd] at h
      | ok f' =>
        obtain rfl : f' = f := by simpa [hw, hd] using h
        simp only [step, interpretStep_of_fetch hw hd, bind_assoc, pure_bind]
        congr! with _ flow
        cases flow.target pc f'.after <;> rfl
  | threaded u =>
    simp only [fetch?] at h
    cases hop : u.lowered.operations[pc]? with
    | none => simp [hop] at h
    | some op =>
      simp only [hop] at h
      split_ifs at h with hne
      obtain rfl := Option.some.inj h
      simp only [step, threadedStep_of_fetch hop hne, bind_assoc, pure_bind]
      congr! with _ flow
      cases flow.target pc (u.lowered.after pc op) <;> rfl
  | native u code => simp [fetch?] at h

theorem step_of_fetch {f : Fetched} (h : a.fetch? = some f) (m : Machine) :
    step embedding run a m =
      match perform embedding run a.window f.operation (m.atPc (a.pc + 1)) with
      | .ok flow m' => .ok ((flow.target a.pc f.after).map fun pc => { a with pc := pc }) m'
      | .error e m' => .error e m' := by
  rw [step_eq_of_fetch embedding run h, Action.bind_ok (savePc_apply _ _), Action.bind_apply]
  cases perform embedding run a.window f.operation (m.atPc (a.pc + 1)) <;> rfl

omit run in
/-- Where nothing is fetched, a step fails, whatever has other code run. -/
theorem step_of_fetch_none (hp : a.Portable) (h : a.fetch? = none) (m : Machine) :
    ∃ e m', (∀ run, step embedding run a m = .error (.malformed e) m') ∧
      (m' = m ∨ m' = m.atPc (a.pc + 1)) := by
  obtain ⟨w, engine, pc⟩ := a
  cases engine with
  | interpreter =>
    simp only [fetch?] at h
    cases hw : w.closure.proto.code[pc]? with
    | none =>
      refine ⟨.pcRange pc, m, fun run => ?_, .inl rfl⟩
      simp [step, interpretStep, hw, Action.bind_apply]
    | some word =>
      cases hd : w.closure.proto.decode pc word with
      | error e =>
        refine ⟨e, m.atPc (pc + 1), fun run => ?_, .inr rfl⟩
        simp [step, interpretStep, hw, hd, Action.bind_apply]
      | ok f => simp [hw, hd] at h
  | threaded u =>
    simp only [fetch?] at h
    cases hop : u.lowered.operations[pc]? with
    | none =>
      refine ⟨.pcRange pc, m, fun run => ?_, .inl rfl⟩
      simp [step, threadedStep, hop, Action.bind_apply]
    | some op =>
      simp only [hop] at h
      split_ifs at h with hd
      subst hd
      refine ⟨.operandWord pc, m.atPc (pc + 1), fun run => ?_, .inr rfl⟩
      simp [step, threadedStep, hop, Action.bind_apply]
  | native u code => exact hp.elim

section

variable {p : Prototype} {l : Lowered} {u : CompiledUnit} {w : Window} {pc : Nat} {word : UInt32}
  {op : Opcode}

theorem fetch?_interpreter (h : p.LowersTo l) (hp : w.closure.proto = p) (hi : p.IsInstruction pc)
    (hw : p.code[pc]? = some word) (hop : (⟨word⟩ : Instruction).opcode? = some op) :
    fetch? ⟨w, .interpreter, pc⟩ =
      some ⟨p.operationAt pc word op, pc + 1 + p.operandCount word⟩ := by
  simp [fetch?, hp, hw, h.decode_eq hi hw hop]

theorem fetch?_threaded (h : p.LowersTo u.lowered) (hi : p.IsInstruction pc)
    (hw : p.code[pc]? = some word) (hop : (⟨word⟩ : Instruction).opcode? = some op) :
    fetch? ⟨w, .threaded u, pc⟩ =
      some ⟨p.operationAt pc word op, u.lowered.after pc (p.operationAt pc word op)⟩ := by
  have hne : p.operationAt pc word op ≠ .data := Operation.ofInstruction_ne_data _ _ _ _ _
  simp [fetch?, h.operation_eq hi hw hop, hne]

theorem fetch?_interpreter_eq_none (hp : w.closure.proto = p) (hpc : p.code.size ≤ pc) :
    fetch? ⟨w, .interpreter, pc⟩ = none := by
  simp [fetch?, hp, Array.getElem?_eq_none hpc]

theorem fetch?_threaded_eq_none
    (h : u.lowered.operations[pc]? = none ∨ u.lowered.operations[pc]? = some .data) :
    fetch? ⟨w, .threaded u, pc⟩ = none := by
  rcases h with h | h <;> simp [fetch?, h]

end

end Activation

@[simp]
theorem Machine.atPc_atPc (m : Machine) (i j : Nat) : (m.atPc i).atPc j = m.atPc j := by
  simp only [atPc, modifyRunning, Strand.modifyFrames, Array.size_modify]
  congr 2
  ext k hk₁ hk₂
  · simp
  · simp only [Array.getElem_modify]
    split <;> rfl

/-! The run of a frame -/

/-- How far the run of a frame has come. -/
inductive Progress
  | running (m : Machine)
  /-- Another frame is on top. -/
  | left (m : Machine)
  | failed (e : Fault) (m : Machine)

/-- Two runs of a frame have come equally far. Errors of the code may differ in what they say and
in the place saved in the frame that failed. -/
inductive Progress.Alike : Progress → Progress → Prop
  | running (m : Machine) : Alike (running m) (running m)
  | left (m : Machine) : Alike (left m) (left m)
  | failed (e : Fault) (m : Machine) : Alike (failed e m) (failed e m)
  | malformed (e e' : Malformation) {m m' : Machine} (h : m.atPc 0 = m'.atPc 0) :
    Alike (failed (.malformed e) m) (failed (.malformed e') m')

section

variable (embedding : Embedding) (runs : Nat → Run)

/-- A number of steps of a frame: the operations it performs and how far it comes. What a step has
run by others may depend on how many steps are left. -/
def follow : Nat → Activation → Machine → List Operation × Progress
  | 0, _, m => ([], .running m)
  | n + 1, a, m =>
    let ops := (a.fetch?.map Fetched.operation).toList
    match step embedding (runs n) a m with
    | .ok (some a') m' => (ops ++ (follow n a' m').1, (follow n a' m').2)
    | .ok none m' => (ops, .left m')
    | .error e m' => (ops, .failed e m')

/-- Takes up the frame on top with a unit, at one of its entries, or interpreted. -/
def takeUp (unit : Option CompiledUnit) : Action Activation := do
  match ← view (·.topFrame?) with
  | none => throw (.malformed .noFrame)
  | some f =>
    match f.closure? with
    | none => throw (.malformed .hostFrame)
    | some c =>
      let closure ← view fun m => m.heap.closure c
      match unit with
      | none => pure ⟨⟨closure, f.base⟩, .interpreter, f.pc⟩
      | some unit =>
        if unit.lowered.isEntry f.pc then pure ⟨⟨closure, f.base⟩, .ofUnit unit, f.pc⟩
        else throw (.malformed (.notAnEntry unit.protoId f.pc))

/-- A number of steps of the frame on top, from where it is taken up. -/
def runFrame (unit : Option CompiledUnit) (n : Nat) (m : Machine) : List Operation × Progress :=
  match takeUp unit m with
  | .ok a m' => follow embedding runs n a m'
  | .error e m' => ([], .failed e m')

end

theorem takeUp_apply {m : Machine} {f : Frame} {c : ClosureId} (hf : m.topFrame? = some f)
    (hc : f.closure? = some c) (unit : Option CompiledUnit) :
    takeUp unit m =
      match unit with
      | none => .ok ⟨⟨m.heap.closure c, f.base⟩, .interpreter, f.pc⟩ m
      | some u =>
        if u.lowered.isEntry f.pc then .ok ⟨⟨m.heap.closure c, f.base⟩, .ofUnit u, f.pc⟩ m
        else .error (.malformed (.notAnEntry u.protoId f.pc)) m := by
  simp only [takeUp, Action.bind_apply, Action.view_apply, hf, hc]
  cases unit with
  | none => rfl
  | some u =>
    dsimp only
    split <;> rfl

/-- The machine takes up a frame with the unit the frame was entered with. -/
theorem activate_eq_takeUp {m : Machine} {f : Frame} (hf : m.topFrame? = some f) :
    activate m = takeUp f.unit m := by
  cases hc : f.closure? with
  | none => simp only [activate, takeUp, Action.bind_apply, Action.view_apply, hf, hc]
  | some c =>
    cases hu : f.unit with
    | none => simp only [activate, takeUp, Action.bind_apply, Action.view_apply, hf, hc, hu]
    | some u => simp only [activate, takeUp, Action.bind_apply, Action.view_apply, hf, hc, hu]

/-- The machine runs a frame by following it. -/
theorem run_proceed (embedding : Embedding) (n depth : Nat) {a : Activation} (ha : a.Portable)
    (m : Machine) :
    run embedding n (.proceed depth a) m =
      match follow embedding (run embedding) n a m with
      | (_, .running m') => .error .outOfFuel m'
      | (_, .failed e m') => .error e m'
      | (ops, .left m') => run embedding (n - ops.length) (.execute depth) m' := by
  induction n generalizing a m with
  | zero => rfl
  | succ n ih =>
    simp only [run, follow, Action.bind_apply]
    cases hf : a.fetch? with
    | none =>
      obtain ⟨e, m', hs, -⟩ := Activation.step_of_fetch_none embedding ha hf m
      simp only [hs]
    | some f =>
      rw [Activation.step_of_fetch embedding (run embedding n) hf m]
      cases perform embedding (run embedding n) a.window f.operation (m.atPc (a.pc + 1)) with
      | error e m' => rfl
      | ok flow m' =>
        cases hflow : flow.target a.pc f.after with
        | none => simp [hflow]
        | some pc =>
          have ha' : { a with pc := pc }.Portable := ha
          simp only [hflow, Option.map_some, ih ha']
          rcases follow embedding (run embedding) n { a with pc := pc } m' with ⟨ops, _ | _ | _⟩ <;>
            simp

section

variable {embedding : Embedding} {runs : Nat → Run} {p : Prototype} {u : CompiledUnit}

/-- An interpreted and a threaded activation of one frame stand at one instruction, or both find
nothing to perform. -/
inductive Abreast (p : Prototype) (u : CompiledUnit) (w : Window) : Activation → Activation → Prop
  | instruction {pc : Nat} (h : p.IsInstruction pc) :
    Abreast p u w ⟨w, .interpreter, pc⟩ ⟨w, .threaded u, pc⟩
  | stuck {i j : Nat} (hi : Activation.fetch? ⟨w, .interpreter, i⟩ = none)
    (hj : Activation.fetch? ⟨w, .threaded u, j⟩ = none) :
    Abreast p u w ⟨w, .interpreter, i⟩ ⟨w, .threaded u, j⟩

theorem follow_alike (h : p.LowersTo u.lowered) {w : Window} (hp : w.closure.proto = p)
    {a b : Activation} (hab : Abreast p u w a b) (n : Nat) (m : Machine) :
    (follow embedding runs n a m).1 = (follow embedding runs n b m).1 ∧
      (follow embedding runs n a m).2.Alike (follow embedding runs n b m).2 := by
  induction n generalizing a b m with
  | zero => exact ⟨rfl, .running m⟩
  | succ n ih =>
    cases hab with
    | @stuck i j hi hj =>
      obtain ⟨e, m₁, hs, hm₁⟩ := Activation.step_of_fetch_none embedding (by trivial) hi m
      obtain ⟨e', m₂, hs', hm₂⟩ := Activation.step_of_fetch_none embedding (by trivial) hj m
      simp only [follow, hi, hj, hs, hs', true_and]
      refine .malformed e e' ?_
      rcases hm₁ with rfl | rfl <;> rcases hm₂ with rfl | rfl <;> simp
    | @instruction pc hi =>
      obtain ⟨word, hw⟩ := hi.exists_word
      obtain ⟨op, hop, -⟩ := h.instruction hi hw
      have hfi := Activation.fetch?_interpreter h hp hi hw hop
      have hft := Activation.fetch?_threaded (w := w) h hi hw hop
      have hsi := Activation.step_of_fetch embedding (runs n) hfi m
      have hst := Activation.step_of_fetch embedding (runs n) hft m
      simp only [follow, hfi, hft, hsi, hst, Option.map_some]
      cases hperf : perform embedding (runs n) w (p.operationAt pc word op) (m.atPc (pc + 1)) with
      | error e m' => exact ⟨rfl, .failed e m'⟩
      | ok flow m' =>
        have hflow := perform_within embedding (runs n) w _ pc _ _ _ hperf
        cases flow with
        | next =>
          have hnext : Abreast p u w ⟨w, .interpreter, pc + 1 + p.operandCount word⟩
              ⟨w, .threaded u, u.lowered.after pc (p.operationAt pc word op)⟩ := by
            rcases (h.operandCount_le hi hw).lt_or_eq with hlt | heq
            · rw [h.after_eq hi hw hop hlt]
              exact .instruction (hi.next hw hlt)
            · exact .stuck (Activation.fetch?_interpreter_eq_none hp heq.ge)
                (Activation.fetch?_threaded_eq_none (h.after_of_last hi hw hop heq.symm))
          obtain ⟨hops, hend⟩ := ih hnext m'
          exact ⟨congrArg (_ ++ ·) hops, hend⟩
        | skip =>
          obtain ⟨hops, hend⟩ := ih (.instruction (h.isInstruction_target hi hw hop hflow)) m'
          exact ⟨congrArg (_ ++ ·) hops, hend⟩
        | jump t =>
          obtain ⟨hops, hend⟩ := ih (.instruction (h.isInstruction_target hi hw hop hflow)) m'
          exact ⟨congrArg (_ ++ ·) hops, hend⟩
        | leave => exact ⟨rfl, .left m'⟩

end

/-- A frame at an entry of its lowered code performs the same operations and comes to the same end
whether it is interpreted or runs its unit. -/
theorem runFrame_alike (embedding : Embedding) (runs : Nat → Run) {p : Prototype} {u : CompiledUnit}
    (hl : p.lower = .ok u.lowered) (hn : u.native = none) {m : Machine} {f : Frame} {c : ClosureId}
    (hf : m.topFrame? = some f) (hc : f.function = .lua c) (hp : (m.heap.closure c).proto = p)
    (he : u.lowered.isEntry f.pc) (n : Nat) :
    (runFrame embedding runs none n m).1 = (runFrame embedding runs (some u) n m).1 ∧
      (runFrame embedding runs none n m).2.Alike (runFrame embedding runs (some u) n m).2 := by
  have h := Prototype.lowersTo_of_lower hl
  have hclosure : f.closure? = some c := by simp [Frame.closure?, hc]
  have hengine : Engine.ofUnit u = .threaded u := by simp [Engine.ofUnit, hn]
  simp only [runFrame, takeUp_apply hf hclosure, he, ↓reduceIte, hengine]
  refine follow_alike h hp (.instruction ?_) n m
  obtain ⟨hlt, hzero | ⟨i, word, op, hpc, hi, hw, hop, rfl⟩⟩ := (h.isEntry f.pc).1 he
  · exact hzero ▸ Prototype.isInstruction_zero h.code
  · have hcount : p.operandCount word = 0 := by simp [Prototype.operandCount, hop]
    have hnext := hi.next hw (by omega)
    rwa [hcount, Nat.add_zero, ← hpc] at hnext

/-! Code with a skip, and a machine in a frame over it -/

def Prototype.leap : Prototype :=
  { Prototype.empty "=leap" with
    code := #[(Instruction.abc .loadBool 0 1 1).word, (Instruction.abc .close 0 0 0).word,
      (Instruction.abc .ret 0 2 0).word] }

def CompiledUnit.leap : CompiledUnit :=
  ⟨0, ⟨#[.loadBool 0 1 true, .close 0, .ret 0 2], #[true, false, true], [0]⟩, none⟩

def Frame.leap : Frame := ⟨.lua ⟨0⟩, none, 0, 1, 3, 0, none, 0, 0, false⟩

def Machine.leap : Machine :=
  let m := Machine.create {} 0 0 {}
  { m with
    heap := { m.heap with closures := #[⟨.leap, #[], ⟨0⟩, none⟩] }
    running := { m.running with frames := #[.leap] } }

theorem runFrame_alike_leap :
    (runFrame (fun _ _ => pure 0) (fun _ _ => throw .outOfFuel) none 2 .leap).1 =
        [.loadBool 0 1 true, .ret 0 2] ∧
      (runFrame (fun _ _ => pure 0) (fun _ _ => throw .outOfFuel) (some .leap) 2 .leap).1 =
        [.loadBool 0 1 true, .ret 0 2] :=
  ⟨rfl, (runFrame_alike _ _ (p := .leap) (u := .leap) rfl rfl (f := .leap) (c := ⟨0⟩) rfl rfl rfl
    ((Lowered.isEntry_iff_mem (by decide) 0).2 (by decide)) 2).1.symm.trans rfl⟩

end LuaMachine
