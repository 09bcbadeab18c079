import LuaMachine.Proofs.Calling
import LuaMachine.Proofs.LimitedCalls

/-!
What a frame does next keeps to the limits: functions are entered within them, and so are all operations whose
registers are on the stack.
-/

namespace LuaMachine

/-! Operations that move the free slot in no way of their own -/

namespace Script

variable {R : Conduct} {α : Type} {w : Window}

theorem ofTame {x : Run → Action α} (h : Tame R False x) : Script R x := h.script

/-- A value goes to a register. -/
theorem store {x : Run → Action Value} (hx : Script R x) (a : Nat) :
    Script R fun run => (do
      w.set a (← x run)
      Pure.pure Flow.next) :=
  hx.andThen fun _ => .andThen (.writeSlot _ _) fun _ => .pure _

theorem concatRange (fuel total finish : Nat) : Script R fun run => concatRange run fuel total finish := by
  have hstep (total finish : Nat) : Script R fun run => concatStep run total finish := by
    refine .andThen (.readSlot _) fun last => .andThen (.readSlot _) fun prev => .ite ?_ ?_
    · exact .andThen (.ofTame (.textRun _ _)) fun _ => .andThen (.sequence (.readSlots _ _)) fun _ =>
        .andThen (.writeSlot _ _) fun _ => .pure _
    · refine .andThen (.view _ fun m => m.erase_binaryHandler? _ _ _) fun h => ?_
      cases h with
      | none => exact .raise _
      | some f => exact .andThen (.callHandler f _) fun _ => .andThen (.writeSlot _ _) fun _ => .pure 2
  induction fuel generalizing total finish with
  | zero => exact .pure ()
  | succ fuel ih => exact .ite (.pure ()) (.andThen (hstep total finish) fun _ => ih _ _)

theorem loopNumber (r : Nat) (what : String) : Script R fun _ => w.loopNumber r what := by
  refine .andThen (.readSlot _) fun v => ?_
  split
  · exact .andThen (.writeSlot _ _) fun _ => .pure _
  · exact .raise _

theorem forPrep (a : Nat) : Script R fun _ => forPrep w a :=
  .andThen (.loopNumber _ _) fun _ => .andThen (.loopNumber _ _) fun _ =>
    .andThen (.loopNumber _ _) fun _ => .writeSlot _ _

theorem forLoop (a : Nat) : Script R fun _ => forLoop w a := by
  refine .andThen (.readSlot _) fun i => .andThen (.readSlot _) fun limit => .andThen (.readSlot _) fun step => ?_
  split
  · exact .ite (.andThen (.writeSlot _ _) fun _ => .andThen (.writeSlot _ _) fun _ => .pure true)
      (.andThen (.writeSlot _ _) fun _ => .pure false)
  · exact .raise _

end Script

/-- Operations that neither call nor return, nor move the free slot, nor open upvalues. -/
def Operation.IsSedate : Operation → Prop
  | .call .. | .tailCall .. | .ret .. | .tForLoop .. | .closure .. | .vararg .. => False
  | _ => True

/-- Such operations may be performed anywhere. -/
theorem Script.perform_sedate {R : Conduct} {w : Window} (embedding : Embedding) {op : Operation}
    (hop : op.IsSedate) : Script R fun run => LuaMachine.perform embedding run w op := by
  cases op with
  | call a b c | tailCall a b | ret a b | tForLoop a c | closure a child cs | vararg a b => exact hop.elim
  | data => exact .throw (by simp)
  | jmp t => exact .pure _
  | loadBool a b skip => exact .andThen (.writeSlot _ _) fun _ => .pure _
  | loadNil a b =>
    have hclear : Script R fun _ => (do
        clearSlots (w.base + a) (b + 1 - a)
        Pure.pure Flow.next) := .andThen (.sequence (.clearSlots _ _)) fun _ => .pure _
    exact .ite (.andThen (.throw (by simp)) fun _ => hclear) hclear
  | move a b => exact .store (.readSlot _) a
  | loadK a i => exact .store (.ofTame (.constant i)) a
  | newTable a b c => exact .store (.sequence (.newTable _)) a
  | not a b => exact .andThen (.readSlot _) fun _ => .andThen (.writeSlot _ _) fun _ => .pure _
  | getUpval a b =>
    exact .andThen (.ofTame (.upvalue b)) fun c => .store (.view _ fun m => m.erase_cellValue c) a
  | setUpval a b => exact .sequence (.performSetUpval a b)
  | getGlobal a i => exact .andThen (.ofTame (.constant i)) fun _ => .store (.ofTame (.index _ _)) a
  | setGlobal a i =>
    exact .andThen (.ofTame (.constant i)) fun _ => .andThen (.readSlot _) fun _ =>
      .andThen (.ofTame (.assign _ _ _)) fun _ => .pure _
  | getTable a b c =>
    exact .andThen (.readSlot _) fun _ => .andThen (.ofTame (.rk c)) fun _ => .store (.ofTame (.getField _ _)) a
  | setTable a b c =>
    exact .andThen (.readSlot _) fun _ => .andThen (.ofTame (.rk b)) fun _ => .andThen (.ofTame (.rk c)) fun _ =>
      .andThen (.ofTame (.assign _ _ _)) fun _ => .pure _
  | self a b c =>
    exact .andThen (.readSlot _) fun _ => .andThen (.ofTame (.rk c)) fun _ => .andThen (.writeSlot _ _) fun _ =>
      .store (.ofTame (.index _ _)) a
  | arith op a b c =>
    exact .andThen (.ofTame (.rk b)) fun _ => .andThen (.ofTame (.rk c)) fun _ =>
      .store (.ofTame (.arith op _ _)) a
  | unm a b => exact .andThen (.readSlot _) fun _ => .store (.ofTame (.negate _)) a
  | len a b => exact .andThen (.readSlot _) fun _ => .store (.ofTame (.length _)) a
  | concat a b c =>
    have hrange : Script R fun run => (do
        LuaMachine.concatRange run (c - b + 1) (c - b + 1) (w.base + c + 1)
        w.set a (← w.get b)
        Pure.pure Flow.next) := .andThen (.concatRange _ _ _) fun _ => .store (.readSlot _) a
    exact .ite (.andThen (.throw (by simp)) fun _ => hrange) hrange
  | eq a b c =>
    exact .andThen (.ofTame (.rk b)) fun _ => .andThen (.ofTame (.rk c)) fun _ =>
      .andThen (.ofTame (.equals _ _)) fun _ => .pure _
  | lt a b c =>
    exact .andThen (.ofTame (.rk b)) fun _ => .andThen (.ofTame (.rk c)) fun _ =>
      .andThen (.ofTame (.lessThan _ _)) fun _ => .pure _
  | le a b c =>
    exact .andThen (.ofTame (.rk b)) fun _ => .andThen (.ofTame (.rk c)) fun _ =>
      .andThen (.ofTame (.lessEqual _ _)) fun _ => .pure _
  | test a c => exact .andThen (.readSlot _) fun _ => .pure _
  | testSet a b c =>
    exact .andThen (.readSlot _) fun _ => .ite (.andThen (.writeSlot _ _) fun _ => .pure _) (.pure _)
  | forLoop a t => exact .andThen (.forLoop a) fun _ => .pure _
  | forPrep a t => exact .andThen (.forPrep a) fun _ => .pure _
  | setList a b n => exact .andThen (.ofTame (.setList a b n)) fun _ => .pure _
  | close a => exact .andThen (.elementary (.closeUpvalues _)) fun _ => .pure _

variable {o : Options} {k : Bool} {m m' : Machine} {slot : Nat} {c : ClosureId}

namespace Machine.Bounded

/-! Resolving the called value -/

theorem unitFor (hm : m.Limited o) (c : ClosureId) : m.Bounded o k (LuaMachine.unitFor c m) := by
  have hcompile : m.Bounded o k (compileClosure c m) := by
    refine .view ?_
    cases (m.heap.closure c).unit with
    | some r => exact .pure hm
    | none =>
      refine .view (.view (.bind (.of_heap hm rfl) fun r m₁ _ hm₁ _ => ?_))
      exact .bind (.of_heap hm₁ rfl) fun _ m₂ _ hm₂ _ => .pure hm₂
  refine .view ?_
  cases m.options.mode with
  | off => exact .pure hm
  | auto | strict =>
    refine .bind hcompile fun r m₁ _ hm₁ _ => ?_
    cases r with
    | ok u => exact .pure hm₁
    | error e => first | exact .pure hm₁ | exact .throw hm₁ (by simp)

theorem resolveCall (hm : m.Limited o) (slot steps argCount : Nat) :
    m.Bounded o k (LuaMachine.resolveCall slot steps argCount m) := by
  induction steps generalizing m argCount with
  | zero => exact .raise hm _
  | succ steps ih =>
    have hresolving := resolving slot steps argCount m
    generalize LuaMachine.resolveCall slot (steps + 1) argCount m = r at hresolving ⊢
    cases hresolving with
    | missing => exact .throw hm (by simp)
    | @lua c _ _ => exact .bind (.unitFor hm c) fun _ m₁ _ hm₁ _ => .pure hm₁
    | host _ _ => exact .pure hm
    | fails _ _ => exact .raise hm _
    | @handler v h _ _ _ =>
      have hplace : m.Bounded o k (placeHandler slot argCount h m) := by
        refine .withRoom hm fun m₁ hm₁ hsize _ => ?_
        refine .bind (.sequence hm₁ (.shiftSlots _ _)) fun _ m₂ _ hm₂ h₂ => ?_
        refine .bind (.writeSlot hm₂ _ _) fun _ m₃ _ hm₃ h₃ => ?_
        have hle := h₂.stack.trans h₃.stack
        exact .setTop hm₃ (by omega)
      exact .bind hplace fun _ m₁ _ hm₁ _ => ih hm₁ _

/-! Entering a function -/

/-- Something is done unless there are as many frames as there may be. -/
theorem withDepth (hm : m.Limited o) {α : Type} {x : Action α}
    (h : m.depth < o.maxDepth → m.Bounded o k (x m)) :
    m.Bounded o k ((checkDepth >>= fun _ => x) m) := by
  rw [Action.bind_apply]
  by_cases hfull : m.options.maxDepth ≤ m.depth
  · simp only [checkDepth, hfull, if_true]
    exact .throw hm (by simp)
  · simp only [checkDepth, hfull, if_false]
    exact h (hm.options_eq.2.1 ▸ Nat.lt_of_not_le hfull)

end Machine.Bounded

/-- Registers of a callee start behind the arguments, and no more of them are in use than its parameters. -/
theorem layOutBase_le (p : Prototype) (start argCount : Nat) :
    Action.Returns (fun r => r.1 ≤ start + max argCount p.paramCount.toNat ∧ r.2 ≤ p.paramCount.toNat + 1)
      (layOutBase p start argCount) := by
  have hplace (surplus : Option (List Value)) :
      Action.Returns (fun r => r.1 ≤ start + max argCount p.paramCount.toNat ∧ r.2 ≤ p.paramCount.toNat + 1)
        (placeParameters p start argCount surplus) := by
    refine .bind fun _ => ?_
    cases surplus with
    | none => exact .pure ⟨le_rfl, Nat.le_succ _⟩
    | some vs => exact .bind fun _ => .bind fun _ => .pure ⟨le_rfl, le_rfl⟩
  refine .ite ?_ (.pure ⟨Nat.le_add_right .., Nat.le_succ _⟩)
  rw [layOutSurplus_eq]
  exact .ite (.bind hplace) (.bind hplace)

theorem Sequence.layOutBase {R : Conduct} (p : Prototype) (start argCount : Nat) :
    Sequence R (layOutBase p start argCount) :=
  .ite (Sequence.slotwise.layOutSurplus .newTable p trivial argCount) (.pure _)

namespace Machine.Bounded

theorem layOutFrame (hm : m.Limited o) (c : ClosureId) (slot argCount : Nat) :
    m.Bounded o k (LuaMachine.layOutFrame c slot argCount m) := by
  rw [layOutFrame_eq]
  refine .withDepth hm fun _ => .view (.withRoom hm fun m₁ hm₁ hsize _ => ?_)
  refine .bind (.sequence hm₁ (.clearSlots _ _)) fun _ m₂ _ hm₂ h₂ => ?_
  refine .bind (.sequence hm₂ (.layOutBase _ _ _)) fun r m₃ hr hm₃ h₃ => ?_
  obtain ⟨hbase, hlive⟩ := layOutBase_le _ _ _ m₂ r m₃ hr
  refine .bind (.sequence hm₃ (.clearSlots _ _)) fun _ m₄ _ hm₄ h₄ => ?_
  have hle := h₂.stack.trans (h₃.stack.trans h₄.stack)
  exact .bind (.setTop hm₄ (by omega)) fun _ m₅ _ hm₅ _ => .pure hm₅

/-- A frame for a function of a program is one more than there were, and its registers are on the stack. -/
theorem enterLua (hm : m.Limited o) (c : ClosureId) (unit : Option CompiledUnit) (slot argCount : Nat)
    (wanted : Option Nat) (tail : Bool) :
    m.Bounded o k (LuaMachine.enterLua c unit slot argCount wanted tail m) := by
  rw [enterLua_eq]
  refine .bind (.layOutFrame hm c slot argCount) fun ⟨p, base, top⟩ m₁ hlay hm₁ h₁ => ?_
  have hframes : m₁.running.frames = m.running.frames := by
    have hconfined := (Orderly.layOutFrame (R := ⟨fun _ => True, .between 0, true, false⟩) c
      (Nat.zero_le slot) argCount).confined m 0 nofun fun _ => id
    rw [hlay] at hconfined
    exact hconfined.frames
  have htop : m₁.running.top = top := (layOutFrame_eq_ok hlay).2.2
  have hdepth : m.depth < o.maxDepth := by
    rw [layOutFrame_eq] at hlay
    obtain ⟨_, m₂, hcheck, -⟩ := Action.bind_eq_ok.1 hlay
    unfold checkDepth at hcheck
    split at hcheck
    · cases hcheck
    · next hlt => exact hm.options_eq.2.1 ▸ Nat.lt_of_not_le hlt
  exact .pushed hm₁ (by rwa [depth, hframes]) (htop ▸ hm₁.running.top)

end Machine.Bounded

/-- Slots to which values were moved are on the stack. -/
theorem moveSlots_lt {target source n : Nat} {u : Unit} (h : moveSlots target source (n + 1) m = .ok u m') :
    target + n < m'.running.stack.size := by
  induction n generalizing target source m with
  | zero =>
    obtain ⟨v, m₁, -, h⟩ := Action.bind_eq_ok.1 h
    obtain ⟨_, m₂, hwrite, h⟩ := Action.bind_eq_ok.1 h
    obtain ⟨hlt, rfl⟩ := writeSlot_eq_ok.1 hwrite
    obtain ⟨-, rfl⟩ := EStateM.Result.ok.inj h
    exact hlt.trans_eq Array.size_setIfInBounds.symm
  | succ n ih =>
    obtain ⟨v, m₁, -, h⟩ := Action.bind_eq_ok.1 h
    obtain ⟨_, m₂, -, h⟩ := Action.bind_eq_ok.1 h
    have hlt := ih h
    omega

namespace Machine.Bounded

variable {α β : Type}

theorem map {x : Action α} {f : α → β} (hx : m.Bounded o k (x m)) : m.Bounded o k ((f <$> x) m) := by
  rw [← bind_pure_comp]
  exact .bind hx fun _ _ _ hm' _ => .pure hm'

/-- The frame on top gives way to another one. -/
theorem replaceFrame (hm : m.Limited o) (c : ClosureId) (unit : Option CompiledUnit) (slot argCount : Nat) :
    m.Bounded o k (LuaMachine.replaceFrame c unit slot argCount m) := by
  have hpopped : m.Bounded o k (.ok () m.popped) := .popped hm
  have hlimited := hpopped.limited
  cases htop : m.topFrame? with
  | none =>
    have happly : LuaMachine.replaceFrame c unit slot argCount m =
        .error (.malformed .noTailFrame) m.popped := by
      simp only [LuaMachine.replaceFrame, popFrame?, Action.bind_apply, Action.view_apply, Action.modify_apply,
        Action.pure_apply, htop]
      rfl
    rw [happly]
    exact .after hpopped.goesOn_ok (.throw hlimited (by simp))
  | some f =>
    rw [replaceFrame_apply htop]
    refine .after hpopped.goesOn_ok (.bind (.closeUpvalues hlimited _) fun _ m₁ _ hm₁ _ => ?_)
    refine .bind (.sequence hm₁ (.moveSlots _ _ _)) fun _ m₂ hmove hm₂ _ => ?_
    have hlt := moveSlots_lt hmove
    exact .bind (.setTop hm₂ (by omega)) fun _ m₃ _ hm₃ _ => .enterLua hm₃ _ _ _ _ _ _

section

variable {run : Run} (hrun : ∀ job, Action.Bounded o true (run job)) {R : Conduct} (hhost : R.seat = .host)
  (hhonest : R.honest = true) {embedding : Embedding} (hosts : ∀ name, Script R (embedding name))

include hrun hhost hhonest hosts

/-- A frame for a host function is one more than there were as well. -/
theorem callHost (hm : m.Limited o) (f : Function) (slot argCount : Nat) (wanted : Option Nat) :
    m.Bounded o true (LuaMachine.callHost embedding run f slot argCount wanted m) := by
  rw [callHost_eq]
  refine .withDepth hm fun hdepth => .withRoom hm fun m₁ hm₁ hsize hframes => ?_
  refine .bind (.setTop hm₁ (by omega)) fun _ m₂ hset hm₂ h₂ => ?_
  obtain ⟨-, rfl⟩ := EStateM.Result.ok.inj hset
  have hdepth₂ : Machine.depth (m₁.modifyRunning fun s => { s with top := slot + 1 + argCount }) < o.maxDepth := by
    change m₁.running.frames.size < o.maxDepth
    rwa [hframes]
  refine .bind (.pushed hm₂ hdepth₂ hsize) fun _ m₃ _ hm₃ _ => ?_
  have hbody : Action.Bounded o true (hostBody embedding f run) :=
    (Script.hostBody hhost hosts f).bounded hhost hhonest hrun
  exact .bind (hbody m₃ hm₃) fun n m₄ _ hm₄ _ => .view (.leaveFrame hm₄ _ _)

theorem startCall (hm : m.Limited o) (slot argCount : Nat) (wanted : Option Nat) :
    m.Bounded o true (LuaMachine.startCall embedding run slot argCount wanted m) := by
  refine .bind (.resolveCall hm _ _ _) fun ⟨target, n⟩ m₁ _ hm₁ _ => ?_
  cases target with
  | host f => exact .bind (.callHost hrun hhost hhonest hosts hm₁ f _ _ _) fun _ m₂ _ hm₂ _ => .pure hm₂
  | lua c unit => exact .bind (.enterLua hm₁ c unit _ _ _ _) fun _ m₂ _ hm₂ _ => .pure hm₂

theorem startTailCall (hm : m.Limited o) (slot argCount : Nat) :
    m.Bounded o true (LuaMachine.startTailCall embedding run slot argCount m) := by
  refine .bind (.resolveCall hm _ _ _) fun ⟨target, n⟩ m₁ _ hm₁ _ => ?_
  cases target with
  | host f => exact .bind (.callHost hrun hhost hhonest hosts hm₁ f _ _ _) fun _ m₂ _ hm₂ _ => .pure hm₂
  | lua c unit => exact .bind (.replaceFrame hm₁ c unit _ _) fun _ m₂ _ hm₂ _ => .pure hm₂

end

/-! Operations -/

section

variable {w : Window}

/-- The arguments of a call end on the stack, if its registers are there. -/
theorem callArgs (hm : m.Limited o) {a b : Nat}
    (hregs : ∀ r ∈ List.range' a b, w.base + r < m.running.stack.size) :
    m.Bounded o k (w.callArgs a b m) := by
  unfold Window.callArgs
  split
  · refine .view ?_
    split
    · exact .bind (.throw hm nofun) fun _ _ h => by cases h
    · exact .pure hm
  · next hb =>
    have hlast := hregs (a + b - 1) (List.mem_range'_1.2 (by omega))
    exact .bind (.setTop hm (by omega)) fun _ m₁ _ hm₁ _ => .pure hm₁

theorem makeClosure (hm : m.Limited o) (child : Nat) (cs : List Capture) :
    m.Bounded o k (LuaMachine.makeClosure w child cs m) := by
  have hcapture (cells : Array CellId) {m : Machine} (hm : m.Limited o) :
      m.Bounded o k (w.capture cs cells m) := by
    induction cs generalizing cells m with
    | nil => exact .pure hm
    | cons c cs ih =>
      cases c with
      | register r => exact .bind (.findUpvalue hm _) fun _ m₁ _ hm₁ _ => ih _ hm₁
      | upvalue i => exact .bind (.sequence hm (.upvalue i)) fun _ m₁ _ hm₁ _ => ih _ hm₁
  unfold LuaMachine.makeClosure
  cases w.closure.proto.children[child]? with
  | none => exact .throw hm nofun
  | some p =>
    exact .bind (hcapture #[] hm) fun cells m₁ _ hm₁ _ =>
      .bind (.of_heap hm₁ rfl) fun id m₂ _ hm₂ _ => .pure hm₂

theorem spreadSurplus (hm : m.Limited o) (a b : Nat) :
    m.Bounded o k (LuaMachine.spreadSurplus w a b m) := by
  refine .view ?_
  split
  · refine .withRoom hm fun m₁ hm₁ hsize _ => ?_
    refine .bind (.sequence hm₁ (.copySlots _ _ _)) fun _ m₂ _ hm₂ h₂ => .setTop hm₂ ?_
    have hle := h₂.stack
    omega
  · exact .bind (.sequence hm (.copySlots _ _ _)) fun _ m₁ _ hm₁ _ => .sequence hm₁ (.clearSlots _ _)

variable {run : Run} (hrun : ∀ job, Action.Bounded o true (run job))

include hrun

theorem iterate (hm : m.Limited o) (a c : Nat) : m.Bounded o k (LuaMachine.iterate run w a c m) := by
  refine .withRoom hm fun m₁ hm₁ hsize _ => ?_
  refine .bind (.sequence hm₁ (.copySlots _ _ _)) fun _ m₂ _ hm₂ h₂ => ?_
  have hle := h₂.stack
  refine .bind (.setTop hm₂ (by omega)) fun _ m₃ _ hm₃ _ => ?_
  refine .bind (.callAt hrun hm₃ _ _ _) fun _ m₄ _ hm₄ _ => ?_
  refine .bind (.resetTop hm₄) fun _ m₅ _ hm₅ _ => .bind (.readSlot hm₅ _) fun v m₆ _ hm₆ _ => ?_
  split
  · exact .pure hm₆
  · exact .bind (.writeSlot hm₆ _ _) fun _ m₇ _ hm₇ _ => .pure hm₇

variable {R : Conduct} (hhost : R.seat = .host) (hhonest : R.honest = true) {embedding : Embedding}
  (hosts : ∀ name, Script R (embedding name))

include hhost hhonest hosts

/-- Operations whose registers are on the stack keep to the limits. -/
theorem perform (hm : m.Limited o) {op : Operation}
    (hregs : ∀ r ∈ op.registers, w.base + r < m.running.stack.size) :
    m.Bounded o true (LuaMachine.perform embedding run w op m) := by
  cases op with
  | call a b c =>
    refine .bind (.callArgs hm fun r hr => hregs r ?_) fun n m₁ _ hm₁ _ =>
      .map (.startCall hrun hhost hhonest hosts hm₁ _ _ _)
    exact List.mem_cons_of_mem _ (List.mem_append_left _ hr)
  | tailCall a b =>
    refine .bind (.callArgs hm fun r hr => hregs r (List.mem_cons_of_mem _ hr)) fun n m₁ _ hm₁ _ =>
      .map (.startTailCall hrun hhost hhonest hosts hm₁ _ _)
  | ret a b =>
    refine .view (.bind (.closeUpvalues hm _) fun _ m₁ _ hm₁ _ => ?_)
    exact .bind (.leaveFrame hm₁ _ _) fun _ m₂ _ hm₂ _ => .pure hm₂
  | tForLoop a c => exact .bind (.iterate hrun hm a c) fun _ m₁ _ hm₁ _ => .pure hm₁
  | closure a child cs =>
    exact .bind (.makeClosure hm child cs) fun v m₁ _ hm₁ _ =>
      .bind (.writeSlot hm₁ _ _) fun _ m₂ _ hm₂ _ => .pure hm₂
  | vararg a b => exact .bind (.spreadSurplus hm a b) fun _ m₁ _ hm₁ _ => .pure hm₁
  | _ =>
    refine (Script.perform_sedate (R := .guest) embedding ?_).bounded rfl rfl hrun m hm
    trivial

end

/-! Steps -/

theorem atPc (hm : m.Limited o) (pc : Nat) : m.Bounded o k (.ok () (m.atPc pc)) := by
  refine .withFrames hm (Array.size_modify.trans_le hm.running.frames) fun g hg => ?_
  obtain ⟨i, hi, rfl⟩ := Array.mem_iff_getElem.1 hg
  rw [Array.size_modify] at hi
  have hmem := Array.getElem_mem hi
  rw [Array.getElem_modify]
  split
  · have hwindow := hm.running.windows _ hmem
    exact .inr hwindow
  · exact .inl hmem

theorem activate (hm : m.Limited o) : m.Bounded o k (LuaMachine.activate m) := by
  refine .view ?_
  cases m.topFrame? with
  | none => exact .throw hm (by simp)
  | some f =>
    dsimp only
    cases f.closure? with
    | none => exact .throw hm (by simp)
    | some c =>
      refine .view ?_
      cases f.unit with
      | none => exact .pure hm
      | some u =>
        dsimp only
        split
        · exact .pure hm
        · exact .throw hm (by simp)

end Machine.Bounded

/-- An activation runs native code, or performs next what names a register that is not on the stack. -/
def Activation.Overreaches (a : Activation) (m : Machine) : Prop :=
  ¬ a.Portable ∨ ∃ f, a.fetch? = some f ∧ ∃ r ∈ f.operation.registers, m.running.stack.size ≤ a.window.base + r

namespace Machine.Bounded

variable {run : Run} (hrun : ∀ job, Action.Bounded o true (run job)) {R : Conduct} (hhost : R.seat = .host)
  (hhonest : R.honest = true) {embedding : Embedding} (hosts : ∀ name, Script R (embedding name))

include hrun hhost hhonest hosts

/-- A frame makes a step. -/
theorem step (hm : m.Limited o) {a : Activation} (h : ¬ a.Overreaches m) :
    m.Bounded o true (LuaMachine.step embedding run a m) := by
  obtain ⟨hportable, hregs⟩ := not_or.1 h
  have hportable := not_not.1 hportable
  cases hfetch : a.fetch? with
  | none =>
    obtain ⟨e, m', hstep, hm'⟩ := Activation.step_of_fetch_none embedding hportable hfetch m
    rw [hstep]
    rcases hm' with rfl | rfl
    · exact .throw hm (by simp)
    · have hat : m.Bounded o true (.ok () (m.atPc (a.pc + 1))) := .atPc hm _
      exact .after hat.goesOn_ok (.throw hat.limited (by simp))
  | some f =>
    rw [Activation.step_eq_of_fetch embedding run hfetch]
    refine .bind (x := savePc (a.pc + 1)) (.atPc hm _) fun _ m₁ hsave hm₁ _ => ?_
    obtain ⟨-, rfl⟩ := EStateM.Result.ok.inj hsave
    refine .bind (.perform hrun hhost hhonest hosts hm₁ fun r hr => ?_) fun flow m₂ _ hm₂ _ => .pure hm₂
    exact Nat.lt_of_not_le fun hle => hregs ⟨f, hfetch, r, hr, hle⟩

end Machine.Bounded

end LuaMachine
