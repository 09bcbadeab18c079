import LuaMachine.Proofs.FrameRun
import LuaMachine.Proofs.WellFormedCode

/-!
Native code beside threaded code. One step of either does the work of the same operation, and native
code then takes the exit that leads where threaded code goes on. Where threaded code runs off the
code or comes to an operand word, native code is left with an error of its own.
-/

namespace LuaMachine

/-! The work of an operation -/

namespace Operation

/-- An operation without what it says about where control goes. A jump does no work. -/
def work? : Operation → Option Operation
  | jmp _ | data => none
  | loadBool a b _ => some (loadBool a b false)
  | forLoop a _ => some (forLoop a 0)
  | forPrep a _ => some (forPrep a 0)
  | op => some op

/-- Where control goes after an operation whose work is done. -/
def resolve : Operation → Flow → Flow
  | loadBool _ _ true, _ => .skip
  | forLoop _ target, .jump _ => .jump target
  | forPrep _ target, _ => .jump target
  | ret _ _, _ => .leave
  | _, flow => flow

variable {op op' : Operation}

/-- To perform an operation is to do its work and then to go where it says. -/
theorem perform_of_work (h : op.work? = some op') (embedding : Embedding) (run : Run) (w : Window) :
    perform embedding run w op = op.resolve <$> perform embedding run w op' := by
  have hsame (hop : op = op') (hresolve : op.resolve = id) :
      perform embedding run w op = op.resolve <$> perform embedding run w op' := by
    rw [hop, ← hop, hresolve, id_map]
  cases op with
  | jmp t => cases h
  | data => cases h
  | loadBool a b skip =>
    obtain rfl := Option.some.inj h
    cases skip <;> simp [perform, resolve]
  | forLoop a t =>
    obtain rfl := Option.some.inj h
    simp only [perform, map_bind, map_pure]
    refine bind_congr fun goesOn => ?_
    cases goesOn <;> rfl
  | forPrep a t =>
    obtain rfl := Option.some.inj h
    simp [perform, resolve]
  | ret a b =>
    obtain rfl := Option.some.inj h
    simp [perform, resolve]
  | _ => exact hsame (Option.some.inj h) rfl

/-- What a helper runs is the work of the operation that calls it. -/
theorem operation_of_helperCall {l : Lowered} {pc : Nat} (hop : l.operations[pc]? = some op)
    (h : op.work? = some op') :
    ∃ call, op.helperCall? = some call ∧ call.operation l pc = .ok op' := by
  cases op with
  | jmp t => cases h
  | data => cases h
  | closure a child captures =>
    obtain rfl := Option.some.inj h
    exact ⟨_, rfl, by simp [HelperCall.operation, hop]⟩
  | _ =>
    obtain rfl := Option.some.inj h
    exact ⟨_, rfl, rfl⟩

end Operation

/-! Where blocks lead -/

namespace Lowered

/-- The place at which an operation can be run, as an exit. -/
def landing (l : Lowered) (pc : Nat) : Exit :=
  match l.operations[pc]? with
  | none | some .data => .off
  | some _ => .block pc

/-- Skipping operand words, some of which are known. -/
theorem skipData_add {operations : Array Operation} {pc k : Nat}
    (h : ∀ i, i < k → operations[pc + i]? = some .data) (n : Nat) :
    skipData operations (k + n) pc = skipData operations n (pc + k) := by
  induction k generalizing pc with
  | zero => rw [Nat.zero_add, Nat.add_zero]
  | succ k ih =>
    have hfirst : operations[pc]? = some .data := h 0 (Nat.succ_pos k)
    have hrest (i : Nat) (hi : i < k) : operations[pc + 1 + i]? = some .data := by
      rw [Nat.add_assoc, Nat.add_comm 1 i]
      exact h (i + 1) (Nat.succ_lt_succ hi)
    rw [Nat.add_right_comm, skipData, hfirst]
    dsimp only
    rw [ih hrest, Nat.add_assoc, Nat.add_comm 1 k]

end Lowered

namespace Prototype.LowersTo

variable {p : Prototype} {l : Lowered} {pc : Nat} {w : UInt32} {op : Opcode}

theorem landing_eq (h : p.LowersTo l) (hi : p.IsInstruction pc) : l.landing pc = .block pc := by
  obtain ⟨w, hw⟩ := hi.exists_word
  obtain ⟨op, hat⟩ := h.hasOpcode hi hw
  have hop := h.operation_eq hi hw hat.opcode
  rw [Lowered.landing, hop]
  split
  · next heq => cases heq
  · next heq => exact absurd (Option.some.inj heq) (Operation.ofInstruction_ne_data _ _ _ _ _)
  · rfl

theorem exitTo_eq (h : p.LowersTo l) (hi : p.IsInstruction pc) : l.exitTo pc = l.landing pc := by
  rw [h.landing_eq hi, Lowered.exitTo, if_pos (h.size ▸ hi.lt)]

/-- The first operation behind an instruction stands behind its operand words. -/
theorem fallthrough_eq (h : p.LowersTo l) (hi : p.IsInstruction pc) (hw : p.code[pc]? = some w) :
    l.fallthrough pc =
      if pc + 1 + p.operandCount w < p.code.size then some (pc + 1 + p.operandCount w) else none := by
  have hle := h.operandCount_le hi hw
  have hdata (i : Nat) (hlt : i < p.operandCount w) : l.operations[pc + 1 + i]? = some .data :=
    h.data (hi.isOperand hw hlt (by omega))
  obtain ⟨n, hn⟩ : ∃ n, p.code.size = pc + 1 + p.operandCount w + n := ⟨_, (Nat.add_sub_cancel' hle).symm⟩
  have hcount : l.operations.size - (pc + 1) = p.operandCount w + n := by
    rw [h.size]
    omega
  rw [Lowered.fallthrough, hcount, Lowered.skipData_add hdata]
  split
  · next hlt => exact h.skipData_eq (hi.next hw hlt) (by omega)
  · next hge =>
    obtain rfl : n = 0 := by omega
    rfl

/-- Falling through leads where threaded code goes on. -/
theorem next_eq (h : p.LowersTo l) (hat : p.HasOpcode pc w op) :
    ((l.fallthrough pc).map l.exitTo).getD .off =
      l.landing (l.after pc (p.operationAt pc w op)) := by
  rw [h.fallthrough_eq hat.isInstruction hat.word]
  split
  · next hlt =>
    rw [h.after_eq hat.isInstruction hat.word hat.opcode hlt]
    exact h.exitTo_eq (hat.isInstruction.next hat.word hlt)
  · next hge =>
    have hlast := Nat.le_antisymm (Nat.not_lt.1 hge) (h.operandCount_le hat.isInstruction hat.word)
    rw [Lowered.landing]
    obtain hnone | hdata := h.after_of_last hat.isInstruction hat.word hat.opcode hlast
    · rw [hnone]
      rfl
    · rw [hdata]
      rfl

end Prototype.LowersTo

/-- An operation that names no targets and calls nothing goes on behind it. -/
theorem Flow.Within.eq_next {op : Operation} {pc : Nat} {flow : Flow} (h : flow.Within op pc)
    (htargets : op.targets pc = []) (hcontrol : op.isControl = false) : flow = .next := by
  cases flow with
  | next => rfl
  | skip => simp [Within, htargets] at h
  | jump t => simp [Within, htargets] at h
  | leave => simp [Within, hcontrol] at h

/-- The exit of a block, for the status that the helper reports, leads where the operation goes. -/
theorem Lowered.exit_block {l : Lowered} {pc : Nat} {op op' : Operation}
    (hnext : ((l.fallthrough pc).map l.exitTo).getD .off = l.landing (l.after pc op))
    (htargets : ∀ t ∈ op.targets pc, l.exitTo t = l.landing t) (hwork : op.work? = some op')
    {flow : Flow} (hflow : (op.resolve flow).Within op pc) :
    (l.block pc op).exit flow.status =
      match (op.resolve flow).target pc (l.after pc op) with
      | none => .leave
      | some t => l.landing t := by
  cases op with
  | jmp t => cases hwork
  | data => cases hwork
  | ret a b => cases flow <;> rfl
  | forPrep a t =>
    have htarget := htargets t (List.mem_singleton_self t)
    cases flow <;> exact htarget
  | forLoop a t =>
    have htarget := htargets t (List.mem_singleton_self t)
    cases flow with
    | next => exact hnext
    | skip =>
      obtain rfl : pc + 2 = t := List.mem_singleton.1 hflow
      exact htarget
    | jump _ => exact htarget
    | leave => cases hflow
  | call a b c | tailCall a b =>
    cases flow with
    | next => exact hnext
    | skip => cases hflow
    | jump _ => cases hflow
    | leave => rfl
  | eq a b c | lt a b c | le a b c | test a c | testSet a b c | tForLoop a c =>
    have htarget := htargets (pc + 2) (List.mem_singleton_self _)
    cases flow with
    | next => exact hnext
    | skip => exact htarget
    | jump t =>
      obtain rfl : t = pc + 2 := List.mem_singleton.1 hflow
      exact htarget
    | leave => cases hflow
  | loadBool a b skip =>
    cases skip with
    | true =>
      have htarget := htargets (pc + 2) (List.mem_singleton_self _)
      cases flow <;> exact htarget
    | false =>
      obtain rfl : flow = .next := hflow.eq_next rfl rfl
      exact hnext
  | _ =>
    obtain rfl : flow = .next := hflow.eq_next rfl rfl
    exact hnext

/-! One step of compiled code -/

/-- The same state, the place saved in the frame on top apart. -/
def Machine.SameButPlace (m m' : Machine) : Prop := m.atPc 0 = m'.atPc 0

theorem Machine.SameButPlace.atPc_eq {m m' : Machine} (h : m.SameButPlace m') (pc : Nat) :
    m.atPc pc = m'.atPc pc := by
  rw [← m.atPc_atPc 0 pc, ← m'.atPc_atPc 0 pc, h]

theorem Machine.SameButPlace.refl (m : Machine) : m.SameButPlace m := rfl

/-- An error as native code reports it. -/
def Fault.guarded (pc : Nat) : Fault → Fault
  | .crash => .malformed (.nativeCrash pc)
  | e => e

theorem guarded_apply {α : Type} (pc : Nat) (x : Action α) (m : Machine) :
    guarded pc x m =
      match x m with
      | .ok a m' => .ok a m'
      | .error e m' => .error (e.guarded pc) m' := by
  unfold guarded Fault.guarded
  cases x m with
  | ok a m' => rfl
  | error e m' => cases e <;> rfl

theorem NativeCode.blocks_of_lowered {l : Lowered} {code : NativeCode}
    (h : NativeCode.ofLowered l = .ok code) (pc : Nat) :
    code.blocks[pc]? = (l.operations[pc]?).map (l.block pc) := by
  unfold ofLowered at h
  split at h
  · cases h
  · obtain rfl := Except.ok.inj h
    exact Array.getElem?_mapIdx

/-- An operation with a helper is compiled to a call of it. -/
theorem NativeCode.block_of_call {l : Lowered} {code : NativeCode}
    (h : NativeCode.ofLowered l = .ok code) {pc : Nat} {op : Operation} {call : HelperCall}
    (hop : l.operations[pc]? = some op) (hcall : op.helperCall? = some call) :
    ∃ next taken frame, code.blocks[pc]? = some (.run call next taken frame) := by
  rw [blocks_of_lowered h, hop, Option.map_some]
  unfold Lowered.block
  simp only [hcall]
  split
  case h_7 => split <;> exact ⟨_, _, _, rfl⟩
  all_goals exact ⟨_, _, _, rfl⟩

/-- How native code goes on at an exit. -/
def CompiledUnit.takeExit (u : CompiledUnit) (w : Window) (code : NativeCode) (m : Machine) :
    Exit → Outcome (Option Activation)
  | .block pc => .ok (some ⟨w, .native u code, pc⟩) m
  | .leave => .ok none m
  | .off => .error (.malformed (.leftNativeCode u.protoId)) m

/-- A block that calls a helper saves the place, has the work done and takes the exit. -/
theorem step_native_of_work (embedding : Embedding) (run : Run) {u : CompiledUnit} {code : NativeCode}
    (hcode : NativeCode.ofLowered u.lowered = .ok code) (w : Window) {pc : Nat} {op op' : Operation}
    (hop : u.lowered.operations[pc]? = some op) (m : Machine) (hwork : op.work? = some op') :
    step embedding run ⟨w, .native u code, pc⟩ m =
      match perform embedding run w op' (m.atPc (pc + 1)) with
      | .ok flow m' => u.takeExit w code m' ((u.lowered.block pc op).exit flow.status)
      | .error e m' => .error (e.guarded pc) m' := by
  obtain ⟨call, hcall, hoperation⟩ := Operation.operation_of_helperCall hop hwork
  obtain ⟨next, taken, frame, hget⟩ := NativeCode.block_of_call hcode hop hcall
  have hblock : u.lowered.block pc op = .run call next taken frame := by
    rw [NativeCode.blocks_of_lowered hcode, hop] at hget
    exact Option.some.inj hget
  have hperform : guarded pc (call.perform embedding run w u.lowered pc) (m.atPc (pc + 1)) =
      match perform embedding run w op' (m.atPc (pc + 1)) with
      | .ok flow m' => .ok flow.status m'
      | .error e m' => .error (e.guarded pc) m' := by
    rw [guarded_apply, HelperCall.perform, hoperation]
    dsimp only
    rw [map_eq_pure_bind, Action.bind_apply]
    cases perform embedding run w op' (m.atPc (pc + 1)) <;> rfl
  simp only [step, nativeStep, hget, runBlock, bind_assoc, Action.bind_ok (savePc_apply _ _),
    Action.bind_apply, hperform, hblock]
  cases perform embedding run w op' (m.atPc (pc + 1)) with
  | error e m' => rfl
  | ok flow m' =>
    dsimp only
    rw [Action.pure_apply]
    dsimp only
    cases (Block.run call next taken frame).exit flow.status <;> rfl

/-- A jump is a branch: nothing is saved. -/
theorem step_native_of_jump (embedding : Embedding) (run : Run) {u : CompiledUnit} {code : NativeCode}
    (hcode : NativeCode.ofLowered u.lowered = .ok code) (w : Window) {pc t : Nat}
    (hop : u.lowered.operations[pc]? = some (.jmp t)) (m : Machine) :
    step embedding run ⟨w, .native u code, pc⟩ m = u.takeExit w code m (u.lowered.exitTo t) := by
  have hget : code.blocks[pc]? = some (.goto (u.lowered.exitTo t)) := by
    rw [NativeCode.blocks_of_lowered hcode, hop]
    rfl
  simp only [step, nativeStep, hget, runBlock, Action.bind_apply, Action.pure_apply]
  cases u.lowered.exitTo t <;> rfl

/-! The run of compiled code -/

/-- The operation whose work an activation does next. -/
def Activation.work? (a : Activation) : Option Operation :=
  match a.engine with
  | .native u code =>
    match code.blocks[a.pc]? with
    | some (.run call _ _ _) => (call.operation u.lowered a.pc).toOption
    | _ => none
  | _ => a.fetch?.bind fun f => f.operation.work?

/-- How far the run of a frame has come. -/
inductive Ending
  | running (a : Activation) (m : Machine)
  /-- Another frame is on top, with so many steps left. -/
  | left (steps : Nat) (m : Machine)
  | failed (e : Fault) (m : Machine)

/-- How native code ends that stands for threaded code. -/
inductive Ending.Refines (u : CompiledUnit) : Ending → Ending → Prop
  | running {w : Window} {pc : Nat} {v : CompiledUnit} {code : NativeCode} {m m' : Machine}
    (h : m.SameButPlace m') :
    Refines u (.running ⟨w, .threaded v, pc⟩ m) (.running ⟨w, .native u code, pc⟩ m')
  | left (steps : Nat) (m : Machine) : Refines u (.left steps m) (.left steps m)
  | failed (e : Fault) (pc : Nat) (m : Machine) :
    Refines u (.failed e m) (.failed (e.guarded pc) m)
  /-- Threaded code has yet to find that it has left the code or come to an operand word. -/
  | astray {w : Window} {pc : Nat} {v : CompiledUnit} {m m' : Machine}
    (hpc : v.lowered.operations[pc]? = none ∨ v.lowered.operations[pc]? = some .data)
    (h : m.SameButPlace m') :
    Refines u (.running ⟨w, .threaded v, pc⟩ m) (.failed (.malformed (.leftNativeCode u.protoId)) m')
  | strayed {e : Malformation} {pc : Nat} {m m' : Machine}
    (he : e = .pcRange pc ∨ e = .operandWord pc) (h : m.SameButPlace m') :
    Refines u (.failed (.malformed e) m) (.failed (.malformed (.leftNativeCode u.protoId)) m')

section

variable (embedding : Embedding) (runs : Nat → Run)

/-- A number of steps of a frame: the work it does, each time with the state in which it is done,
and how far it comes. What a step has run by others may depend on how many steps are left. -/
def pursue : Nat → Activation → Machine → List (Operation × Machine) × Ending
  | 0, a, m => ([], .running a m)
  | n + 1, a, m =>
    let done := (a.work?.map fun op => (op, m.atPc (a.pc + 1))).toList
    match step embedding (runs n) a m with
    | .ok (some a') m' => (done ++ (pursue n a' m').1, (pursue n a' m').2)
    | .ok none m' => (done, .left n m')
    | .error e m' => (done, .failed e m')

/-- The machine runs a frame by pursuing it. -/
theorem run_pursue (n depth : Nat) (a : Activation) (m : Machine) :
    run embedding n (.proceed depth a) m =
      match (pursue embedding (run embedding) n a m).2 with
      | .running _ m' => .error .outOfFuel m'
      | .left steps m' => run embedding steps (.execute depth) m'
      | .failed e m' => .error e m' := by
  induction n generalizing a m with
  | zero => rfl
  | succ n ih =>
    simp only [run, pursue, Action.bind_apply]
    cases hstep : step embedding (run embedding n) a m with
    | error e m' => rfl
    | ok next m' =>
      cases next with
      | none => rfl
      | some a' => exact ih a' m'

end

/-- Native code does the same work on the same states, and ends as threaded code does. -/
def Matches (u : CompiledUnit) (x y : List (Operation × Machine) × Ending) : Prop :=
  x.1 = y.1 ∧ x.2.Refines u y.2

section

variable (embedding : Embedding) (runs : Nat → Run) {p : Prototype} {u v : CompiledUnit}
  {code : NativeCode} {w : Window} {n pc : Nat} {op op' : Operation} {m m' : Machine}

/-- What native code does from an exit on. -/
def pursueExit (u : CompiledUnit) (w : Window) (code : NativeCode) (n : Nat) (m : Machine) :
    Exit → List (Operation × Machine) × Ending
  | .block pc => pursue embedding runs n ⟨w, .native u code, pc⟩ m
  | .leave => ([], .left n m)
  | .off => ([], .failed (.malformed (.leftNativeCode u.protoId)) m)

/-- What threaded code does after an operation, from the next place on. -/
def pursueTarget (v : CompiledUnit) (w : Window) (n : Nat) (m : Machine) :
    Option Nat → List (Operation × Machine) × Ending
  | some pc => pursue embedding runs n ⟨w, .threaded v, pc⟩ m
  | none => ([], .left n m)

theorem pursue_native_of_work (hcode : NativeCode.ofLowered u.lowered = .ok code)
    (hop : u.lowered.operations[pc]? = some op) (hwork : op.work? = some op') :
    pursue embedding runs (n + 1) ⟨w, .native u code, pc⟩ m =
      match perform embedding (runs n) w op' (m.atPc (pc + 1)) with
      | .ok flow m' =>
        let rest := pursueExit embedding runs u w code n m' ((u.lowered.block pc op).exit flow.status)
        ((op', m.atPc (pc + 1)) :: rest.1, rest.2)
      | .error e m' => ([(op', m.atPc (pc + 1))], .failed (e.guarded pc) m') := by
  obtain ⟨call, hcall, hoperation⟩ := Operation.operation_of_helperCall hop hwork
  obtain ⟨next, taken, frame, hget⟩ := NativeCode.block_of_call hcode hop hcall
  have hdoes : Activation.work? ⟨w, .native u code, pc⟩ = some op' := by
    simp only [Activation.work?, hget, hoperation]
    rfl
  simp only [pursue, hdoes, step_native_of_work embedding (runs n) hcode w hop m hwork]
  cases perform embedding (runs n) w op' (m.atPc (pc + 1)) with
  | error e m' => rfl
  | ok flow m' =>
    dsimp only
    cases (u.lowered.block pc op).exit flow.status <;> rfl

theorem pursue_threaded_of_work (hop : v.lowered.operations[pc]? = some op)
    (hwork : op.work? = some op') :
    pursue embedding runs (n + 1) ⟨w, .threaded v, pc⟩ m =
      match perform embedding (runs n) w op' (m.atPc (pc + 1)) with
      | .ok flow m' =>
        let rest := pursueTarget embedding runs v w n m'
          ((op.resolve flow).target pc (v.lowered.after pc op))
        ((op', m.atPc (pc + 1)) :: rest.1, rest.2)
      | .error e m' => ([(op', m.atPc (pc + 1))], .failed e m') := by
  have hfetch : Activation.fetch? ⟨w, .threaded v, pc⟩ = some ⟨op, v.lowered.after pc op⟩ := by
    have hne : op ≠ .data := by
      rintro rfl
      cases hwork
    simp only [Activation.fetch?, hop, if_neg hne]
  have hdoes : Activation.work? ⟨w, .threaded v, pc⟩ = some op' := by
    simp only [Activation.work?, hfetch]
    exact hwork
  simp only [pursue, hdoes, Activation.step_of_fetch embedding (runs n) hfetch,
    Operation.perform_of_work hwork, map_eq_pure_bind, Action.bind_apply]
  cases perform embedding (runs n) w op' (m.atPc (pc + 1)) with
  | error e m' => rfl
  | ok flow m' =>
    simp only [Action.pure_apply]
    cases (op.resolve flow).target pc (v.lowered.after pc op) <;> rfl

theorem pursue_native_of_jump (hcode : NativeCode.ofLowered u.lowered = .ok code) {t : Nat}
    (hop : u.lowered.operations[pc]? = some (.jmp t)) :
    pursue embedding runs (n + 1) ⟨w, .native u code, pc⟩ m =
      pursueExit embedding runs u w code n m (u.lowered.exitTo t) := by
  have hget : code.blocks[pc]? = some (.goto (u.lowered.exitTo t)) := by
    rw [NativeCode.blocks_of_lowered hcode, hop]
    rfl
  simp only [pursue, Activation.work?, hget, step_native_of_jump embedding (runs n) hcode w hop m]
  cases u.lowered.exitTo t <;> rfl

theorem pursue_threaded_of_jump {t : Nat} (hop : v.lowered.operations[pc]? = some (.jmp t)) :
    pursue embedding runs (n + 1) ⟨w, .threaded v, pc⟩ m =
      pursue embedding runs n ⟨w, .threaded v, t⟩ (m.atPc (pc + 1)) := by
  have hfetch : Activation.fetch? ⟨w, .threaded v, pc⟩ =
      some ⟨.jmp t, v.lowered.after pc (.jmp t)⟩ := by
    simp [Activation.fetch?, hop]
  simp only [pursue, Activation.work?, hfetch, Activation.step_of_fetch embedding (runs n) hfetch]
  rfl

/-- Where nothing can be run, threaded code fails in its next step. -/
theorem pursue_threaded_of_stray
    (hpc : v.lowered.operations[pc]? = none ∨ v.lowered.operations[pc]? = some .data)
    (hm : m.SameButPlace m') :
    Matches u (pursue embedding runs n ⟨w, .threaded v, pc⟩ m)
      (pursueExit embedding runs u w code n m' .off) := by
  cases n with
  | zero => exact ⟨rfl, .astray hpc hm⟩
  | succ n =>
    have hnone := Activation.fetch?_threaded_eq_none (w := w) hpc
    obtain ⟨e, m₁, hstep, he, hm₁⟩ : ∃ e m₁,
        step embedding (runs n) ⟨w, .threaded v, pc⟩ m = .error (.malformed e) m₁ ∧
          (e = .pcRange pc ∨ e = .operandWord pc) ∧ m₁.SameButPlace m := by
      obtain h | h := hpc
      · refine ⟨.pcRange pc, m, ?_, .inl rfl, rfl⟩
        simp [step, threadedStep, h, Action.bind_apply]
      · refine ⟨.operandWord pc, m.atPc (pc + 1), ?_, .inr rfl, m.atPc_atPc _ _⟩
        simp [step, threadedStep, h, Action.bind_apply]
    simp only [pursue, hstep, Activation.work?, hnone]
    exact ⟨rfl, .strayed he (hm₁.trans hm)⟩

/-- Both engines go on at an instruction, or threaded code has gone astray where native code is
left. -/
theorem matches_landing (hu : p.LowersTo u.lowered) (hv : v.lowered = u.lowered)
    (hm : m.SameButPlace m')
    (ih : p.IsInstruction pc → Matches u (pursue embedding runs n ⟨w, .threaded v, pc⟩ m)
      (pursue embedding runs n ⟨w, .native u code, pc⟩ m')) :
    Matches u (pursue embedding runs n ⟨w, .threaded v, pc⟩ m)
      (pursueExit embedding runs u w code n m' (u.lowered.landing pc)) := by
  by_cases hi : p.IsInstruction pc
  · rw [hu.landing_eq hi]
    exact ih hi
  · have hpc : u.lowered.operations[pc]? = none ∨ u.lowered.operations[pc]? = some .data := by
      obtain hlt | hge := Nat.lt_or_ge pc p.code.size
      · exact .inr (hu.data ((Prototype.isInstruction_or_isOperand hlt).resolve_left hi))
      · exact .inl (hu.getElem?_eq_none hge)
    have hoff : u.lowered.landing pc = .off := by
      rw [Lowered.landing]
      obtain h | h := hpc <;> rw [h]
    rw [hoff]
    exact pursue_threaded_of_stray embedding runs (hv ▸ hpc) hm

/-- From an instruction on, native code does what threaded code does. -/
theorem pursue_matches (hu : p.LowersTo u.lowered) (hv : v.lowered = u.lowered)
    (hcode : NativeCode.ofLowered u.lowered = .ok code) (hi : p.IsInstruction pc)
    (hm : m.SameButPlace m') :
    Matches u (pursue embedding runs n ⟨w, .threaded v, pc⟩ m)
      (pursue embedding runs n ⟨w, .native u code, pc⟩ m') := by
  induction n generalizing pc m m' with
  | zero => exact ⟨rfl, .running hm⟩
  | succ n ih =>
    obtain ⟨word, hw⟩ := hi.exists_word
    obtain ⟨opcode, hat⟩ := hu.hasOpcode hi hw
    have hop := hu.operation_eq hi hw hat.opcode
    have hopv := hv ▸ hop
    have hnext := hu.next_eq hat
    have htargets (t : Nat) (ht : t ∈ (p.operationAt pc word opcode).targets pc) :
        u.lowered.exitTo t = u.lowered.landing t :=
      hu.exitTo_eq (hu.isInstruction_target hi hw hat.opcode ht)
    have hne : p.operationAt pc word opcode ≠ .data := Operation.ofInstruction_ne_data _ _ _ _ _
    generalize p.operationAt pc word opcode = op at *
    cases hwork : op.work? with
    | none =>
      -- Only a jump does no work. Threaded code saves the place before it, native code does not.
      obtain ⟨t, rfl⟩ : ∃ t, op = .jmp t := by
        cases op with
        | jmp t => exact ⟨t, rfl⟩
        | data => exact absurd rfl hne
        | _ => cases hwork
      have hm₁ : (m.atPc (pc + 1)).SameButPlace m' := (m.atPc_atPc _ _).trans hm
      rw [pursue_threaded_of_jump embedding runs hopv, pursue_native_of_jump embedding runs hcode hop,
        htargets t (List.mem_singleton_self t)]
      exact matches_landing embedding runs hu hv hm₁ fun ht => ih ht hm₁
    | some op' =>
      have hperform := congrFun (Operation.perform_of_work hwork embedding (runs n) w) (m.atPc (pc + 1))
      rw [pursue_threaded_of_work embedding runs hopv hwork,
        pursue_native_of_work embedding runs hcode hop hwork, ← hm.atPc_eq (pc + 1)]
      rw [map_eq_pure_bind, Action.bind_apply] at hperform
      cases h : perform embedding (runs n) w op' (m.atPc (pc + 1)) with
      | error e m₁ => exact ⟨rfl, .failed e pc m₁⟩
      | ok flow m₁ =>
        rw [h] at hperform
        have hwithin := perform_within embedding (runs n) w op pc _ _ _ hperform
        have hexit := Lowered.exit_block hnext htargets hwork hwithin
        dsimp only
        rw [hexit, hv]
        cases (op.resolve flow).target pc (u.lowered.after pc op) with
        | none => exact ⟨rfl, .left n m₁⟩
        | some t =>
          have hrest := matches_landing embedding runs (w := w) hu hv (Machine.SameButPlace.refl m₁)
            fun (ht : p.IsInstruction t) => ih ht (Machine.SameButPlace.refl m₁)
          exact ⟨congrArg (_ :: ·) hrest.1, hrest.2⟩

end

/-- Where the switch at the start of native code leads. -/
def Lowered.entrySwitch (l : Lowered) (pc : Nat) : Exit := if pc ∈ l.entries then l.exitTo pc else .off

/-- A number of steps of the frame on top, from where it is taken up with a unit. Native code is
entered through its switch. -/
def runUnit (embedding : Embedding) (runs : Nat → Run) (u : CompiledUnit) (n : Nat) (m : Machine) :
    List (Operation × Machine) × Ending :=
  match takeUp (some u) m with
  | .error e m => ([], .failed e m)
  | .ok a m =>
    match u.native with
    | none => pursue embedding runs n a m
    | some code => pursueExit embedding runs u a.window code n m (u.lowered.entrySwitch a.pc)

/-- The switch leads where the machine takes the frame up. -/
theorem runUnit_eq {embedding : Embedding} {runs : Nat → Run} {p : Prototype} {u : CompiledUnit}
    (hu : p.LowersTo u.lowered) {m : Machine} {f : Frame} {c : ClosureId} (hf : m.topFrame? = some f)
    (hc : f.closure? = some c) (he : u.lowered.isEntry f.pc) (n : Nat) :
    runUnit embedding runs u n m =
      pursue embedding runs n ⟨⟨m.heap.closure c, f.base⟩, .ofUnit u, f.pc⟩ m := by
  have hmem := (Lowered.isEntry_iff_mem hu.increasing f.pc).1 he
  have hi := hu.isInstruction_entry hmem
  simp only [runUnit, takeUp_apply hf hc, he, if_true, Lowered.entrySwitch, hmem, hu.exitTo_eq hi,
    hu.landing_eq hi, pursueExit, Engine.ofUnit]
  cases u.native <;> rfl

/-- The native code of a lowered prototype that is not too long does the work that its threaded code
does, on the same states, and comes to the same end, from every entry on. -/
theorem native_refines_threaded (embedding : Embedding) (runs : Nat → Run) {p : Prototype}
    {l : Lowered} (hl : p.lower = .ok l) (hsize : l.operations.size ≤ Limit.nativeOperations) :
    ∃ code, NativeCode.ofLowered l = .ok code ∧
      ∀ id m f c, m.topFrame? = some f → f.function = .lua c → l.isEntry f.pc → ∀ n,
        Matches ⟨id, l, some code⟩ (runUnit embedding runs ⟨id, l, none⟩ n m)
          (runUnit embedding runs ⟨id, l, some code⟩ n m) := by
  have hu := Prototype.lowersTo_of_lower hl
  have hcode : NativeCode.ofLowered l = .ok ⟨l.operations.mapIdx l.block⟩ :=
    if_neg (Nat.not_lt.2 hsize)
  refine ⟨_, hcode, fun id m f c hf hc he n => ?_⟩
  have hclosure : f.closure? = some c := by rw [Frame.closure?, hc]
  have hi := hu.isInstruction_entry ((Lowered.isEntry_iff_mem hu.increasing f.pc).1 he)
  rw [runUnit_eq hu hf hclosure he, runUnit_eq hu hf hclosure he]
  exact pursue_matches embedding runs hu rfl hcode hi (Machine.SameButPlace.refl m)

/-- Native code skips over the second of three instructions, as threaded code does. -/
theorem native_refines_threaded_leap :
    ∃ code, NativeCode.ofLowered CompiledUnit.leap.lowered = .ok code ∧
      (runUnit (fun _ _ => pure 0) (fun _ _ => throw .outOfFuel)
        ⟨0, CompiledUnit.leap.lowered, some code⟩ 2 .leap).1.map (·.1) =
        [.loadBool 0 1 false, .ret 0 2] := by
  obtain ⟨code, hcode, h⟩ := native_refines_threaded (fun _ _ => pure 0)
    (fun _ _ => throw .outOfFuel) (p := .leap) (l := CompiledUnit.leap.lowered) rfl (by decide)
  have hentry : CompiledUnit.leap.lowered.isEntry 0 :=
    (Lowered.isEntry_iff_mem (by decide) 0).2 (by decide)
  refine ⟨code, hcode, ?_⟩
  have hlowers : Prototype.leap.LowersTo (CompiledUnit.mk 0 CompiledUnit.leap.lowered none).lowered :=
    Prototype.lowersTo_of_lower rfl
  rw [← (h 0 .leap .leap ⟨0⟩ rfl rfl hentry 2).1,
    runUnit_eq hlowers (f := .leap) (c := ⟨0⟩) rfl rfl hentry]
  rfl

end LuaMachine
