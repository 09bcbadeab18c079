import LuaMachine.Proofs.Calling
import LuaMachine.Proofs.OperationScript
import LuaMachine.Proofs.Watch

/-!
Closed upvalues stay closed. Cells are added open or closed, and those that are open are closed at some
moment; nothing that a machine runs ever opens one again.
-/

namespace LuaMachine

/-- No cell is taken away, and none that was closed is open. -/
structure Heap.Seals (h h' : Heap) : Prop where
  size : h.cells.size ≤ h'.cells.size
  cell : ∀ c, c.index < h.cells.size → (h.cell c).isOpen = false → (h'.cell c).isOpen = false

/-- An action that opens no closed cell, wherever it ends. -/
def Sealing {α : Type} (x : Action α) : Prop :=
  ∀ m : Machine, m.heap.Seals (Outcome.state (x m)).heap

variable {h h' h'' : Heap} {m : Machine} {R : Conduct} {α β : Type} {held : List Value}

namespace Heap.Seals

theorem of_cells (hcells : h'.cells = h.cells) : h.Seals h' where
  size := by rw [hcells]
  cell c _ hc := by rwa [Heap.cell, hcells]

theorem refl (h : Heap) : h.Seals h := of_cells rfl

theorem trans (hs : h.Seals h') (hs' : h'.Seals h'') : h.Seals h'' where
  size := hs.size.trans hs'.size
  cell c hlt hc := hs'.cell c (hlt.trans_le hs.size) (hs.cell c hlt hc)

/-- What is open afterwards was open before. -/
theorem of_opened (hsize : h.cells.size ≤ h'.cells.size)
    (hopened : ∀ c o i, c.index < h.cells.size → h'.cell c = .opened o i → ∃ o i, h.cell c = .opened o i) :
    h.Seals h' where
  size := hsize
  cell c hlt hc := by
    cases hc' : h'.cell c with
    | closed v => rfl
    | opened o i =>
      obtain ⟨o', i', hopen⟩ := hopened c o i hlt hc'
      rw [hopen] at hc
      cases hc

theorem newCell (h : Heap) (x : Cell) : h.Seals (h.newCell x).2 where
  size := by simp [Heap.newCell, modifyCells]
  cell c hlt hc := by rwa [cell_newCell, if_neg hlt.ne]

theorem newCells (h : Heap) (vs : List Value) : h.Seals (h.newCells vs).2 := by
  rw [newCells_eq_addCells]
  generalize (#[] : Array CellId) = ids
  induction vs generalizing h ids with
  | nil => exact .refl h
  | cons v vs ih => exact (newCell h _).trans (ih _ _)

theorem setCell (h : Heap) (c : CellId) (v : Value) : h.Seals (h.setCell c (.closed v)) :=
  of_opened (by simp [Heap.setCell, modifyCells]) fun _ o i _ hd => ⟨o, i, (h.cell_close hd).1⟩

theorem closeCells (h : Heap) (s : Strand) (level : Nat) : h.Seals (h.closeCells s level).1 := by
  have hfold (cs : List OpenCell) (h : Heap) :
      h.Seals (cs.foldl (fun h c => h.setCell c.cell (.closed (s.peek c.slot))) h) := by
    induction cs generalizing h with
    | nil => exact .refl h
    | cons c cs ih => exact (setCell h _ _).trans (ih _)
  unfold Heap.closeCells
  split
  · exact .refl h
  · exact hfold _ h

end Heap.Seals

theorem Machine.seals_setCellValue (m : Machine) (c : CellId) (v : Value) :
    m.heap.Seals (m.setCellValue c v).heap := by
  cases hc : m.heap.cell c with
  | closed w =>
    simp only [setCellValue, hc]
    exact .setCell m.heap c v
  | opened o i =>
    simp only [setCellValue, hc, setStrandSlot]
    split_ifs
    · exact .refl _
    · exact .refl _
    · cases o with
      | main n => exact .refl _
      | coroutine u => exact .of_cells rfl

namespace Sealing

theorem of_cells {x : Action α} (hx : ∀ m, (Outcome.state (x m)).heap.cells = m.heap.cells) : Sealing x :=
  fun m => .of_cells (hx m)

theorem bind_ok {x : Action α} {f : α → Action β} (hx : Sealing x)
    (hf : ∀ a, (∃ m m', x m = .ok a m') → Sealing (f a)) : Sealing (x >>= f) := by
  intro m
  have hm := hx m
  rw [Action.bind_apply]
  cases hr : x m with
  | ok a m' =>
    rw [hr] at hm
    exact hm.trans (hf a ⟨m, m', hr⟩ m')
  | error e m' =>
    rw [hr] at hm
    exact hm

theorem bind {x : Action α} {f : α → Action β} (hx : Sealing x) (hf : ∀ a, Sealing (f a)) :
    Sealing (x >>= f) :=
  hx.bind_ok fun a _ => hf a

theorem map {x : Action α} (f : α → β) (hx : Sealing x) : Sealing (f <$> x) := by
  rw [← bind_pure_comp]
  exact hx.bind fun a m => .refl m.heap

theorem attempt {x : Action α} (hx : Sealing x) : Sealing (attempt x) := by
  intro m
  have hm := hx m
  rw [Action.attempt_apply]
  cases hr : x m with
  | ok a m' =>
    rw [hr] at hm
    exact hm
  | error e m' =>
    rw [hr] at hm
    dsimp only
    split <;> exact hm

theorem guarded (pc : Nat) {x : Action α} (hx : Sealing x) : Sealing (guarded pc x) := by
  intro m
  have hm := hx m
  unfold LuaMachine.guarded
  split
  · next m' hr =>
    rw [hr] at hm
    exact hm
  · exact hm

theorem heed (alarm : Moment → Option Fault) (moment : Machine → Moment) {x : Action α} (hx : Sealing x) :
    Sealing (heed alarm moment x) := by
  intro m
  unfold LuaMachine.heed
  split
  · exact hx m
  · exact .refl _

theorem pure (a : α) : Sealing (Pure.pure a) := fun _ => .refl _

theorem throw (e : Fault) : Sealing (MonadExcept.throw e : Action α) := fun _ => .refl _

theorem view (f : Machine → α) : Sealing (view f) := fun _ => .refl _

theorem raise (c : Complaint) : Sealing (raise c : Action α) := fun _ => .refl _

/-- A change in which no cell is opened or closed. -/
theorem modify {f : Machine → Machine} (hf : ∀ m, (f m).heap.cells = m.heap.cells) :
    Sealing (modify f : Action Unit) :=
  .of_cells hf

theorem ite {c : Prop} [Decidable c] {x y : Action α} (hx : Sealing x) (hy : Sealing y) :
    Sealing (if c then x else y) := by
  split
  · exact hx
  · exact hy

theorem readSlot (i : Nat) : Sealing (readSlot i) := by
  intro m
  unfold LuaMachine.readSlot
  split <;> exact .refl _

theorem writeSlot (i : Nat) (v : Value) : Sealing (writeSlot i v) := by
  intro m
  unfold LuaMachine.writeSlot
  split <;> exact .of_cells rfl

theorem ensureStack (n : Nat) : Sealing (ensureStack n) := by
  intro m
  unfold LuaMachine.ensureStack
  split_ifs <;> exact .of_cells rfl

theorem closeUpvalues (level : Nat) : Sealing (closeUpvalues level) :=
  fun m => .closeCells m.heap m.running level

theorem assignUpvalue (c : CellId) (v : Value) : Sealing (assignUpvalue c v) := by
  intro m
  rcases assignUpvalue_cases c v m with hx | hx <;> rw [hx]
  · exact m.seals_setCellValue c v
  · exact .refl _

theorem findUpvalue (slot : Nat) : Sealing (findUpvalue slot) := by
  refine .bind (.view _) fun o => ?_
  cases o with
  | some c => exact .pure _
  | none =>
    refine .bind (.view _) fun owner => .bind (fun m => ?_) fun id => .bind (.modify fun _ => rfl) fun _ => .pure _
    exact .newCell m.heap _

end Sealing

/-! Scripts -/

/-- Basic actions close cells and open new ones. -/
theorem Elementary.sealing {x : Action α} (h : Elementary R x) : Sealing x := by
  cases h with
  | view f _ => exact .view f
  | throw e _ => exact .throw e
  | readSlot i => exact .readSlot i
  | writeSlot i v => exact .writeSlot i v
  | resetTop =>
    refine .bind (.view _) fun o => ?_
    cases o with
    | none => exact .pure ()
    | some f => exact .modify fun _ => rfl
  | pushValue v =>
    exact .bind (.view _) fun _ => .bind (.ensureStack _) fun _ => .bind (.writeSlot _ _) fun _ =>
      .modify fun _ => rfl
  | ensureStack n => exact .ensureStack n
  | closeUpvalues level => exact .closeUpvalues level
  | findUpvalue slot _ => exact .findUpvalue slot
  | assignUpvalue c v => exact .assignUpvalue c v
  | newCells vs => exact fun m => .newCells m.heap vs
  | createCoroutine body =>
    have hnew : Sealing (onHeap (·.newCoroutine body)) := .of_cells fun _ => rfl
    exact .ite (.bind (.raise _) fun _ => hnew) hnew
  | takeOutput _ => exact .bind (.view _) fun _ => .bind (.modify fun _ => rfl) fun _ => .pure _
  | compile p _ _ => exact .bind (.view _) fun _ => .of_cells fun _ => rfl
  | setTop _ _ | modifyTable _ _ | setStringMetatable _ | newTable _ | newHostClosure _ | newClosure _ _ _ _ _
  | print _ | setMode _ _ => exact .of_cells fun _ => rfl

theorem Sequence.sealing {x : Action α} (h : Sequence R x) : Sealing x := by
  induction h with
  | elementary h => exact h.sealing
  | pure a => exact .pure a
  | bind _ _ ihx ihf => exact ihx.bind_ok ihf

/-- The rules for basic actions that may free any slot. -/
def Conduct.loose : Conduct := ⟨fun _ => True, .between 0, true, false⟩

namespace Sealing

theorem setTop (top : Nat) : Sealing (setTop top) := .modify fun _ => rfl

theorem savePc (pc : Nat) : Sealing (savePc pc) := .modify fun _ => rfl

theorem writeSlots (i : Nat) (vs : List Value) : Sealing (writeSlots i vs) :=
  (Sequence.writeSlots (R := .loose) i vs).sealing

theorem clearSlots (i n : Nat) : Sealing (clearSlots i n) :=
  (Sequence.clearSlots (R := .loose) i n).sealing

theorem moveSlots (target source n : Nat) : Sealing (moveSlots target source n) :=
  (Sequence.moveSlots (R := .loose) target source n).sealing

theorem shiftSlots (finish n : Nat) : Sealing (shiftSlots finish n) :=
  (Sequence.shiftSlots (R := .loose) finish n).sealing

theorem takeSlots (i n : Nat) : Sealing (takeSlots i n) :=
  (Sequence.takeSlots (R := .loose) i n).sealing

theorem placeCall (f : Value) (args : List Value) : Sealing (placeCall f args) :=
  .bind (.view _) fun slot => .bind (.ensureStack _) fun _ => .bind (.writeSlot slot f) fun _ =>
    .bind (.writeSlots _ args) fun _ => .bind (.setTop _) fun _ => .pure slot

theorem unwind (depth boundary : Nat) : Sealing (unwind depth boundary) :=
  .bind (.closeUpvalues boundary) fun _ => .modify fun _ => rfl

theorem leaveFrame (first n : Nat) : Sealing (leaveFrame first n) := by
  refine .bind (.bind (.view _) fun f => .bind (.modify fun _ => rfl) fun _ => .pure f) fun o => ?_
  cases o with
  | none => exact .pure ()
  | some f =>
    refine .bind (.ensureStack _) fun _ => .bind (.moveSlots _ _ _) fun _ =>
      .bind (.clearSlots _ _) fun _ => ?_
    cases f.wanted with
    | none => exact .setTop _
    | some w =>
      refine .bind (.view _) fun o => ?_
      cases o <;> exact .setTop _

theorem gather : Sealing gather :=
  .bind (.view _) fun top => .bind (.takeSlots 0 top) fun vs => .bind (.setTop 0) fun _ => .pure vs

end Sealing

/-! Calls and resumptions -/

namespace Machine

/-! Strands are switched without a change of cells. -/

theorem cells_setCurrentStatus (m : Machine) (status : CoroutineStatus) :
    (m.setCurrentStatus status).heap.cells = m.heap.cells := by
  unfold setCurrentStatus
  split <;> rfl

theorem cells_resumed (m : Machine) (c : CoroutineId) : (m.resumed c).heap.cells = m.heap.cells :=
  cells_setCurrentStatus _ .normal

theorem cells_resumedFrom (m : Machine) (c : CoroutineId) (resumer : Option CoroutineId)
    (status : CoroutineStatus) : (m.resumedFrom c resumer status).heap.cells = m.heap.cells := by
  change (switchBack _ c resumer).heap.cells = m.heap.cells
  unfold switchBack
  split
  · rfl
  · exact cells_setCurrentStatus _ .running

end Machine

namespace Sealing

theorem resumeFailed (c : CoroutineId) (resumer : Option CoroutineId) (e : Fault) :
    Sealing fun m => LuaMachine.resumeFailed c resumer m e := by
  intro m
  by_cases he : e = .yield
  · subst he
    exact .of_cells (m.cells_resumedFrom c resumer .suspended)
  · simp only [resumeFailed_of_ne c resumer m he]
    split
    · exact .refl _
    · have hclosed : m.heap.Seals m.resetRunning.heap := .closeCells m.heap m.running 0
      exact hclosed.trans (.of_cells (Machine.cells_resumedFrom _ c resumer .dead))

theorem yieldValues (vs : List Value) : Sealing (yieldValues vs : Action α) := by
  intro m
  rw [yieldValues_apply]
  split
  · exact .refl _
  · split <;> exact .of_cells rfl

end Sealing

section

variable {run : Run} (hrun : ∀ job, Sealing (run job))

include hrun

namespace Sealing

theorem callAt (slot argCount : Nat) (wanted : Option Nat) :
    Sealing (callAt run slot argCount wanted held) := by
  intro m
  have hcall := hrun (.call slot argCount wanted) (m.entered held)
  rw [callAt_apply]
  split
  · exact .refl _
  · cases hr : run (.call slot argCount wanted) (m.entered held) with
    | ok u m' =>
      rw [hr] at hcall
      exact hcall
    | error e m' =>
      rw [hr] at hcall
      dsimp only
      split <;> exact hcall

theorem callHandler (f : Value) (args : List Value) : Sealing (callHandlerHolding run held f args) :=
  .bind (.placeCall f args) fun slot => .bind (callAt hrun slot _ _) fun _ =>
    .bind (.bind (.readSlot slot) fun v => .bind (.writeSlot slot .nil) fun _ => .pure v) fun v =>
      .bind (.setTop slot) fun _ => .pure v

theorem callValue (f : Value) (args : List Value) : Sealing (callValueHolding run held f args) :=
  .bind (.placeCall f args) fun slot => .bind (callAt hrun slot _ _) fun _ => .bind (.view _) fun _ =>
    .bind (.takeSlots slot _) fun vs => .bind (.setTop slot) fun _ => .pure vs

theorem call (f : Value) (args : List Value) : Sealing (call run f args) := by
  refine .bind (.view _) fun depth => .bind (.view _) fun boundary =>
    .bind (.attempt (callValue hrun f args)) fun o => ?_
  cases o with
  | ok vs => exact .pure vs
  | error e => exact .bind (.view _) fun e => .bind (.unwind depth boundary) fun _ => .throw e

theorem protectedCall (f : Value) (args : List Value) : Sealing (protectedCall run f args) := by
  refine .bind (.view _) fun depth => .bind (.view _) fun boundary =>
    .bind (.attempt (callValue hrun f args)) fun o => ?_
  cases o with
  | ok vs => exact .pure _
  | error e => exact .bind (.unwind depth boundary) fun _ => .pure _

theorem runCoroutine (args : List Value) : Sealing (runCoroutine run args) := by
  intro m
  rw [runCoroutine_apply]
  split
  · exact Sealing.bind (.ensureStack _) (fun _ => .bind (.writeSlots 1 args) fun _ => .bind (.setTop _) fun _ =>
      .bind (hrun _) fun _ => .gather) m
  · exact Sealing.bind (.view _) (fun first => .bind (.ensureStack _) fun _ => .bind (.writeSlots first args) fun _ =>
      .bind (.setTop _) fun _ => .bind (.leaveFrame first _) fun _ => .bind (hrun _) fun _ => .gather) m

theorem resume (c : CoroutineId) (args : List Value) : Sealing (resume run c args) := by
  intro m
  have hresumed := m.cells_resumed c
  have hrunning := runCoroutine hrun args (m.resumed c)
  rw [resume_apply]
  split
  · split
    · exact .refl _
    · rw [resumeSuspended_apply]
      cases hr : LuaMachine.runCoroutine run args (m.resumed c) with
      | ok vs m' =>
        rw [hr] at hrunning
        exact (Heap.Seals.of_cells hresumed).trans (hrunning.trans (.of_cells (m'.cells_resumedFrom c _ .dead)))
      | error e m' =>
        rw [hr] at hrunning
        exact (Heap.Seals.of_cells hresumed).trans (hrunning.trans (resumeFailed c _ e m'))
  all_goals exact .refl _

end Sealing

/-- Nothing that a script does opens a closed cell, if it may see that a call yields. -/
theorem Script.sealing {x : Run → Action α} (h : Script R x) (hhonest : R.honest = false) :
    Sealing (x run) := by
  induction h with
  | sequence h => exact h.sealing
  | bind _ _ ihx ihf => exact ihx.bind_ok fun a ⟨m, m', h⟩ => ihf a ⟨run, m, m', h⟩
  | callAt slot argCount wanted _ => exact .callAt hrun slot argCount wanted
  | callHandler f args => exact .callHandler hrun f args
  | callValue f args => exact .callValue hrun f args
  | protectedCall f args => exact .protectedCall hrun f args
  | resume c args => exact .resume hrun c args
  | call f args _ => exact .call hrun f args
  | tryCall f args _ _ _ ihv ihe =>
    refine .bind (.attempt (.call hrun f args)) fun r => ?_
    cases r with
    | ok vs => exact ihv vs
    | error e => exact ihe e fun _ => hhonest
  | yieldValues vs _ => exact .yieldValues vs
  | attempt _ _ _ ihx => exact .attempt ihx

end

/-! Calls of functions -/

namespace Sealing

theorem pushFrame (f : Frame) : Sealing (pushFrame f) := .modify fun _ => rfl

theorem popFrame? : Sealing popFrame? :=
  .bind (.view _) fun f => .bind (.modify fun _ => rfl) fun _ => .pure f

theorem compileClosure (c : ClosureId) : Sealing (compileClosure c) := by
  refine .bind (.view _) fun r => ?_
  cases r with
  | some r => exact .pure r
  | none =>
    exact .bind (.view _) fun cache => .bind (.view _) fun p => .bind (.of_cells fun m => rfl) fun r =>
      .bind (.modify fun _ => rfl) fun _ => .pure r

theorem unitFor (c : ClosureId) : Sealing (unitFor c) := by
  refine .bind (.view _) fun mode => ?_
  cases mode with
  | off => exact .pure none
  | auto | strict =>
    refine .bind (.compileClosure c) fun r => ?_
    cases r with
    | ok unit => exact .pure _
    | error e => exact .ite (.throw _) (.pure none)

theorem checkClosure (c : ClosureId) : Sealing (checkClosure c) := by
  intro m
  unfold LuaMachine.checkClosure
  split <;> exact .refl _

theorem resolveCall (slot steps argCount : Nat) : Sealing (resolveCall slot steps argCount) := by
  induction steps generalizing argCount with
  | zero => exact .raise _
  | succ steps ih =>
    have hhandler (v : Value) : Sealing (resolveHandler slot steps argCount v) := by
      refine .bind (.view _) fun h => ?_
      cases h with
      | none => exact .raise _
      | some h =>
        exact .bind (.ensureStack _) fun _ => .bind (.shiftSlots _ _) fun _ => .bind (.writeSlot _ _) fun _ =>
          .bind (.setTop _) fun _ => ih _
    refine .bind (.readSlot slot) fun v => ?_
    cases v with
    | function f =>
      cases f with
      | lua c => exact .bind (.checkClosure c) fun _ => .bind (.unitFor c) fun _ => .pure _
      | _ => exact .pure _
    | _ => exact hhandler _

theorem enterLua (c : ClosureId) (unit : Option CompiledUnit) (slot argCount : Nat) (wanted : Option Nat)
    (tail : Bool) : Sealing (enterLua c unit slot argCount wanted tail) := by
  rw [enterLua_eq]
  exact .bind (Orderly.layOutFrame (R := .loose) c (Nat.zero_le slot) argCount).sequence.sealing fun _ =>
    .pushFrame _

theorem replaceFrame (c : ClosureId) (unit : Option CompiledUnit) (slot argCount : Nat) :
    Sealing (replaceFrame c unit slot argCount) := by
  refine .bind .popFrame? fun o => ?_
  cases o with
  | none => exact .throw _
  | some f =>
    exact .bind (.closeUpvalues _) fun _ => .bind (.moveSlots _ _ _) fun _ => .bind (.setTop _) fun _ =>
      .enterLua _ _ _ _ _ _

section

variable {embedding : Embedding} {run : Run} (hembedding : ∀ name, Script R (embedding name))
  (hhost : R.seat = .host) (hhonest : R.honest = false) (hrun : ∀ job, Sealing (run job))

include hembedding hhost hhonest hrun

theorem callHost (f : Function) (slot argCount : Nat) (wanted : Option Nat) :
    Sealing (callHost embedding run f slot argCount wanted) := by
  have hbody (g : HostFunction) : Sealing (g.body embedding run) := by
    cases g with
    | builtin f => exact (f.script hhost).sealing hrun hhonest
    | embedded name => exact (hembedding name).sealing hrun hhonest
  have hfunction : Sealing (hostBody embedding f run) := by
    cases f with
    | host g => exact hbody g
    | hostClosure c => exact .bind (.view _) fun g => hbody g
    | lua c => exact .throw _
  rw [callHost_eq]
  exact .bind (Orderly.checkDepth (R := .loose)).sequence.sealing fun _ => .bind (.ensureStack _) fun _ =>
    .bind (.setTop _) fun _ => .bind (.pushFrame _) fun _ => .bind hfunction fun n => .bind (.view _) fun _ =>
      .leaveFrame _ _

theorem startCall (slot argCount : Nat) (wanted : Option Nat) :
    Sealing (startCall embedding run slot argCount wanted) := by
  refine .bind (.resolveCall _ _ _) fun r => ?_
  obtain ⟨target, argCount⟩ := r
  cases target with
  | host f =>
    exact .bind (callHost hembedding hhost hhonest hrun f slot argCount wanted) fun _ => .pure _
  | lua c unit => exact .bind (.enterLua _ _ _ _ _ _) fun _ => .pure _

theorem startTailCall (slot argCount : Nat) : Sealing (startTailCall embedding run slot argCount) := by
  refine .bind (.resolveCall _ _ _) fun r => ?_
  obtain ⟨target, argCount⟩ := r
  cases target with
  | host f => exact .bind (callHost hembedding hhost hhonest hrun f slot argCount none) fun _ => .pure _
  | lua c unit => exact .bind (.replaceFrame _ _ _ _) fun _ => .pure _

/-! Steps -/

theorem perform (w : Window) (op : Operation) : Sealing (perform embedding run w op) := by
  have hargs (a b : Nat) : Sealing (w.callArgs a b) :=
    (Script.callArgs (R := ⟨fun _ => True, .code w.base, false, false⟩) rfl a b).sealing hrun rfl
  by_cases hop : op.isControl = false
  · exact (Script.perform (R := ⟨fun _ => True, .code w.base, false, false⟩) embedding rfl hop
      fun _ _ _ _ _ _ => ⟨trivial, nofun⟩).sealing hrun rfl
  · cases op with
    | call a b c =>
      exact .bind (hargs a b) fun n => .map _ (startCall hembedding hhost hhonest hrun _ _ _)
    | tailCall a b =>
      exact .bind (hargs a b) fun n => .map _ (startTailCall hembedding hhost hhonest hrun _ _)
    | ret a b =>
      exact .bind (.view _) fun top => .bind (.closeUpvalues _) fun _ => .bind (.leaveFrame _ _) fun _ =>
        .pure _
    | _ => exact absurd rfl hop

theorem interpretStep (w : Window) (pc : Nat) : Sealing (interpretStep embedding run w pc) := by
  unfold LuaMachine.interpretStep
  split
  · exact .throw _
  · refine .bind (.savePc _) fun _ => ?_
    split
    · exact .throw _
    · exact .bind (perform hembedding hhost hhonest hrun w _) fun flow => .pure _

theorem threadedStep (w : Window) (l : Lowered) (pc : Nat) :
    Sealing (threadedStep embedding run w l pc) := by
  unfold LuaMachine.threadedStep
  split
  · exact .throw _
  · refine .bind (.savePc _) fun _ => ?_
    split
    · exact .throw _
    · exact .bind (perform hembedding hhost hhonest hrun w _) fun flow => .pure _

theorem nativeStep (w : Window) (unit : CompiledUnit) (code : NativeCode) (pc : Nat) :
    Sealing (nativeStep embedding run w unit code pc) := by
  have hhelper (call : HelperCall) : Sealing (call.perform embedding run w unit.lowered pc) := by
    unfold HelperCall.perform
    split
    · exact .throw _
    · exact .map _ (perform hembedding hhost hhonest hrun w _)
  have hblock (b : Block) : Sealing (runBlock embedding run w unit.lowered pc b) := by
    cases b with
    | goto e => exact .pure e
    | run call next taken frame =>
      exact .bind (.savePc _) fun _ => .bind (.guarded pc (hhelper call)) fun _ => .pure _
  unfold LuaMachine.nativeStep
  split
  · exact .throw _
  · refine .bind (hblock _) fun e => ?_
    cases e with
    | block pc => exact .pure _
    | leave => exact .pure none
    | off => exact .throw _

theorem step (a : Activation) : Sealing (step embedding run a) := by
  obtain ⟨w, engine, pc⟩ := a
  cases engine with
  | interpreter =>
    refine .bind (interpretStep hembedding hhost hhonest hrun w pc) fun o => ?_
    cases o <;> exact .pure _
  | threaded unit =>
    refine .bind (threadedStep hembedding hhost hhonest hrun w unit.lowered pc) fun o => ?_
    cases o <;> exact .pure _
  | native unit code =>
    refine .bind (nativeStep hembedding hhost hhonest hrun w unit code pc) fun o => ?_
    cases o <;> exact .pure _

end

theorem activate : Sealing activate := by
  refine .bind (.view _) fun o => ?_
  cases o with
  | none => exact .throw _
  | some f =>
    dsimp only
    split
    · exact .throw _
    · refine .bind (.view _) fun closure => ?_
      split
      · exact .pure _
      · exact .ite (.pure _) (.throw _)

end Sealing

/-- No run opens a closed cell. -/
theorem sealing_watched {embedding : Embedding} (hembedding : ∀ name, Script R (embedding name))
    (hhost : R.seat = .host) (hhonest : R.honest = false) (alarm : Moment → Option Fault) (fuel : Nat)
    (job : Job) : Sealing (watched embedding alarm fuel job) := by
  induction fuel generalizing job with
  | zero => exact .throw _
  | succ fuel ih =>
    cases job with
    | call slot argCount wanted =>
      refine .bind (.view _) fun depth =>
        .bind (.startCall hembedding hhost hhonest ih slot argCount wanted) fun o => ?_
      cases o with
      | done => exact .pure ()
      | pushed => exact ih _
    | execute depth =>
      exact .bind (.view _) fun d =>
        .ite (.pure ()) (.bind (.heed alarm _ .activate) fun a => ih _)
    | proceed depth a =>
      refine .bind (.heed alarm _ (.step hembedding hhost hhonest ih a)) fun o => ?_
      cases o <;> exact ih _

end LuaMachine
