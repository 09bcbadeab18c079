import LuaMachine.Execution
import LuaMachine.Proofs.Action
import LuaMachine.Proofs.Soundness

/-!
The top of the stack. Metamethods leave it where it was or further up; a call for a fixed number of
results leaves it at the end of the caller's registers, any other one not below its results.
-/

namespace LuaMachine

theorem topFrame?_eq_some {m : Machine} {f : Frame} :
    m.topFrame? = some f ↔ ∃ fs, m.running.frames.toList = fs ++ [f] := by
  rw [Machine.topFrame?, ← Array.getLast?_toList, List.getLast?_eq_some_iff]

theorem topFrame?_of_append {m : Machine} {fs : List Frame} {f : Frame}
    (hfs : m.running.frames.toList = fs ++ [f]) : m.topFrame? = some f :=
  topFrame?_eq_some.2 ⟨fs, hfs⟩

/-- The top is at the end of the registers of a frame that goes on at `pc`, unless it may have been
left open there; then it is not below the register it was left open from. -/
def Frame.Poised (f : Frame) (p : Prototype) (pc top : Nat) : Prop :=
  f.top ≤ top ∨ ∃ r, p.OpenAt r pc ∧ f.base + r ≤ top

/-- Where an operation of a frame leaves the top. -/
def Operation.Lands (op : Operation) (f : Frame) (top top' : Nat) : Prop :=
  match op.opens with
  | some r => f.base + r ≤ top'
  | none => if op.closes then f.top ≤ top' else top ≤ top'

/-- Where the results of a call leave the top: they go to a slot, and so many of them are wanted. -/
def Machine.Topped (m : Machine) (slot : Nat) : Option Nat → Prop
  | none => slot ≤ m.running.top
  | some _ => ∀ f, m.topFrame? = some f → f.isLua = true → f.top ≤ m.running.top

section

variable {f : Frame} {p : Prototype} {pc after dest top top' slot : Nat} {op : Operation}
  {wanted : Option Nat} {m : Machine} {h : Heap} {c : ClosureId}

theorem Frame.Poised.step (hf : f.Poised p pc top) (hop : p.Decodes pc op after)
    (hleads : op.Leads pc after dest) (hlands : op.Lands f top top') : f.Poised p dest top' := by
  unfold Operation.Lands at hlands
  cases hopens : op.opens with
  | some r =>
    rw [hopens] at hlands
    exact .inr ⟨r, .opened hop hopens hleads, hlands⟩
  | none =>
    simp only [hopens] at hlands
    cases hcloses : op.closes with
    | true =>
      rw [hcloses] at hlands
      exact .inl hlands
    | false =>
      -- the top did not move down: what held before holds on, an open path one instruction longer
      rw [hcloses] at hlands
      apply hf.imp hlands.trans'
      intro ⟨r, hopen, hr⟩
      exact ⟨r, .kept hopen hop hopens hcloses hleads, hr.trans hlands⟩

/-- A call that is over has left the top where its frame waits for it. -/
theorem Operation.lands_of_topped {r : Nat} (ha : op.awaits = some (r, wanted))
    (hm : m.Topped (f.base + r) wanted) (hf : m.topFrame? = some f) (hlua : f.isLua = true) :
    op.Lands f top m.running.top := by
  unfold Operation.Lands
  cases wanted with
  | none =>
    rw [Operation.opens_of_awaits ha]
    exact hm
  | some n =>
    obtain ⟨hopens, hcloses⟩ := Operation.closes_of_awaits ha
    rw [hopens, hcloses]
    exact hm f hf hlua

theorem Frame.isLua_of_closure? (hc : f.closure? = some c) : f.isLua = true := by
  unfold Frame.isLua
  rw [hc]
  rfl

theorem Frame.Awaits.poised (ha : f.Awaits h slot wanted) (hm : m.Topped slot wanted)
    (hf : m.topFrame? = some f) (hc : f.closure? = some c) :
    f.Poised (h.closure c).proto f.pc m.running.top := by
  obtain ⟨d, pc, op, r, hd, -, hop, hawaits, rfl⟩ := ha
  obtain rfl : c = d := Option.some.inj (hc.symm.trans hd)
  cases wanted with
  | some n => exact .inl (hm f hf (Frame.isLua_of_closure? hc))
  | none =>
    have hopens := Operation.opens_of_awaits hawaits
    refine .inr ⟨r, .opened hop hopens (.inl ⟨?_, rfl⟩), hm⟩
    cases op <;> first | rfl | cases hopens

end

/-! Actions that do not move the top down -/

theorem Machine.top_setCellValue (m : Machine) (c : CellId) (v : Value) :
    (m.setCellValue c v).running.top = m.running.top := by
  unfold Machine.setCellValue Machine.setStrandSlot
  split
  · rfl
  · split_ifs
    · rfl
    · rfl
    · split <;> rfl

theorem Machine.top_le_callBase (m : Machine) : m.running.top ≤ m.callBase := by
  unfold Machine.callBase
  split
  · split
    · exact le_max_left ..
    · exact le_rfl
  · exact le_rfl

namespace Action

variable {α β : Type}

theorem bind_eq_ok {x : Action α} {f : α → Action β} {m m' : Machine} {b : β} :
    (x >>= f) m = .ok b m' ↔ ∃ a m₁, x m = .ok a m₁ ∧ f a m₁ = .ok b m' := by
  rw [bind_apply]
  cases x m <;> simp

/-- The states before and after an action that does not fail are related. -/
def Relates (R : Machine → Machine → Prop) (x : Action α) : Prop :=
  ∀ m a m', x m = .ok a m' → R m m'

/-- The top is not further down after the action. -/
abbrev Rises (x : Action α) : Prop := Relates (fun m m' => m.running.top ≤ m'.running.top) x

/-- Whatever was before an action, the state after it satisfies a predicate. -/
abbrev Leaves (P : Machine → Prop) (x : Action α) : Prop := Relates (fun _ m' => P m') x

theorem Leaves.bind {P : Machine → Prop} {x : Action α} {f : α → Action β}
    (hf : ∀ a, Leaves P (f a)) : Leaves P (x >>= f) := by
  intro m b m' h
  obtain ⟨a, m₁, -, h⟩ := bind_eq_ok.1 h
  exact hf a m₁ b m' h

theorem leaves_setTop (top : Nat) : Leaves (fun m => m.running.top = top) (setTop top) := by
  intro m _ m' h
  obtain ⟨-, rfl⟩ := EStateM.Result.ok.inj h
  rfl

theorem returns_placeCall {f : Value} {args : List Value} {m m' : Machine} {slot : Nat}
    (h : placeCall f args m = .ok slot m') : slot = m.callBase := by
  obtain ⟨base, m₁, hbase, h⟩ := bind_eq_ok.1 h
  obtain ⟨rfl, -⟩ := EStateM.Result.ok.inj hbase
  obtain ⟨-, m₂, -, h⟩ := bind_eq_ok.1 h
  obtain ⟨-, m₃, -, h⟩ := bind_eq_ok.1 h
  obtain ⟨-, m₄, -, h⟩ := bind_eq_ok.1 h
  obtain ⟨-, m₅, -, h⟩ := bind_eq_ok.1 h
  exact (EStateM.Result.ok.inj h).1.symm

namespace Rises

theorem bind {x : Action α} {f : α → Action β} (hx : Rises x) (hf : ∀ a, Rises (f a)) :
    Rises (x >>= f) := by
  intro m b m' h
  obtain ⟨a, m₁, hx', h⟩ := bind_eq_ok.1 h
  exact (hx m a m₁ hx').trans (hf a m₁ b m' h)

/-- The action changes the state so that its top stays. -/
theorem of_apply {x : Action α} (h : ∀ m a m', x m = .ok a m' → m'.running.top = m.running.top) :
    Rises x := fun m a m' hx => (h m a m' hx).ge

theorem pure (a : α) : Rises (Pure.pure a : Action α) :=
  of_apply fun _ _ _ h => (EStateM.Result.ok.inj h).2 ▸ rfl

theorem view (f : Machine → α) : Rises (LuaMachine.view f) :=
  of_apply fun _ _ _ h => (EStateM.Result.ok.inj h).2 ▸ rfl

theorem throw (e : Fault) : Rises (MonadExcept.throw e : Action α) := by
  intro m a m' h
  cases h

theorem raise (c : Complaint) : Rises (LuaMachine.raise c : Action α) := by
  intro m a m' h
  cases h

theorem modify {f : Machine → Machine} (hf : ∀ m, (f m).running.top = m.running.top) :
    Rises (modify f : Action Unit) :=
  of_apply fun m _ _ h => (EStateM.Result.ok.inj h).2 ▸ hf m

theorem onHeap (f : Heap → α × Heap) : Rises (LuaMachine.onHeap f) :=
  of_apply fun _ _ _ h => (EStateM.Result.ok.inj h).2 ▸ rfl

theorem ite {c : Prop} [Decidable c] {x y : Action α} (hx : Rises x) (hy : Rises y) :
    Rises (if c then x else y) := by
  split
  · exact hx
  · exact hy

theorem map {x : Action α} {f : α → β} (hx : Rises x) : Rises (f <$> x) := by
  rw [← bind_pure_comp]
  exact hx.bind fun a => .pure (f a)

theorem readSlot (i : Nat) : Rises (LuaMachine.readSlot i) := by
  apply of_apply
  intro m a m' h
  unfold LuaMachine.readSlot at h
  split at h
  · exact (EStateM.Result.ok.inj h).2 ▸ rfl
  · cases h

theorem writeSlot (i : Nat) (v : Value) : Rises (LuaMachine.writeSlot i v) := by
  apply of_apply
  intro m a m' h
  unfold LuaMachine.writeSlot at h
  split at h
  · exact (EStateM.Result.ok.inj h).2 ▸ rfl
  · cases h

theorem closeUpvalues (level : Nat) : Rises (LuaMachine.closeUpvalues level) := by
  apply modify
  intro m
  obtain ⟨cells, openCells, heq⟩ := m.heap.closeCells_eq m.running level
  simp only [Machine.modifyBoth, heq]

theorem assignUpvalue (c : CellId) (v : Value) : Rises (LuaMachine.assignUpvalue c v) := by
  apply of_apply
  intro m a m' h
  rcases assignUpvalue_cases c v m with hx | hx <;> rw [hx] at h
  · exact (EStateM.Result.ok.inj h).2 ▸ m.top_setCellValue c v
  · cases h

theorem findUpvalue (slot : Nat) : Rises (LuaMachine.findUpvalue slot) := by
  apply bind (view _)
  intro c
  cases c with
  | some c => exact pure _
  | none =>
    exact (view _).bind fun owner => (onHeap _).bind fun id =>
      (modify (f := (·.modifyRunning fun s => { s with openCells := ⟨slot, id⟩ :: s.openCells }))
        fun _ => rfl).bind fun _ => pure id

theorem slotwise : Slotwise (fun _ => True) Rises where
  pure := pure
  andThen := bind
  readSlot := readSlot
  writeSlot _ := writeSlot _
  mono _ _ := trivial

theorem clearSlots (i n : Nat) : Rises (LuaMachine.clearSlots i n) := slotwise.clearSlots trivial n

theorem copySlots (target source n : Nat) : Rises (LuaMachine.copySlots target source n) :=
  slotwise.copySlots trivial source n

theorem readSlots (i n : Nat) : Rises (LuaMachine.readSlots i n) := slotwise.readSlots i n

theorem newTable (t : Table) : Rises (LuaMachine.newTable t) := (onHeap _).bind fun _ => pure _

theorem rawSet (t : TableId) (key v : Value) : Rises (LuaMachine.rawSet t key v) := by
  unfold LuaMachine.rawSet
  split
  · exact modify fun _ => rfl
  · exact raise _

/-! Metamethods -/

section

variable (run : Run)

/-- A handler is called above everything in use, and the top is left where it was placed. -/
theorem callHandler {held : List Value} (f : Value) (args : List Value) :
    Rises (callHandlerHolding run held f args) := by
  intro m v m' h
  obtain ⟨slot, m₁, hplace, h⟩ := bind_eq_ok.1 h
  obtain ⟨-, m₂, -, h⟩ := bind_eq_ok.1 h
  obtain ⟨v', m₃, -, h⟩ := bind_eq_ok.1 h
  obtain ⟨u, m₄, htop, h⟩ := bind_eq_ok.1 h
  obtain ⟨-, rfl⟩ := EStateM.Result.ok.inj h
  rw [leaves_setTop slot m₃ u m₄ htop, returns_placeCall hplace]
  exact m.top_le_callBase

theorem index (v key : Value) : Rises (index run v key) := by
  apply (view _).bind
  intro r
  cases r with
  | value found => exact pure found
  | handler f receiver => exact callHandler run f _
  | notIndexable w | tooLong => exact raise _

theorem assign (v key new : Value) : Rises (assign run v key new) := by
  apply (view _).bind
  intro r
  cases r with
  | store t => exact rawSet t key new
  | handler f receiver => exact (callHandler run f _).bind fun _ => pure ()
  | notIndexable w | tooLong => exact raise _

theorem length (v : Value) : Rises (length v) := by
  cases v with
  | table t => exact view _
  | str s => exact pure _
  | _ => exact raise _

theorem arith (op : ArithOp) (l r : Value) : Rises (arith run op l r) := by
  unfold LuaMachine.arith
  split
  · exact pure _
  · apply (view _).bind
    intro h
    cases h with
    | some h => exact callHandler run h _
    | none => exact raise _

theorem negate (v : Value) : Rises (negate run v) := by
  unfold LuaMachine.negate
  split
  · exact pure _
  · apply (view _).bind
    intro h
    cases h with
    | some h => exact callHandler run h _
    | none => exact raise _

theorem callPredicate (h l r : Value) : Rises (callPredicate run h l r) :=
  (callHandler run h _).bind fun _ => pure _

theorem equals (l r : Value) : Rises (equals run l r) := by
  unfold LuaMachine.equals
  split
  · apply ite (pure true)
    apply (view _).bind
    intro h
    cases h with
    | some h => exact callPredicate run h _ _
    | none => exact pure false
  · exact pure _

theorem lessThan (l r : Value) : Rises (lessThan run l r) := by
  unfold LuaMachine.lessThan
  split
  · exact pure _
  · exact pure _
  · apply ite (raise _)
    apply (view _).bind
    intro h
    cases h with
    | some h => exact callPredicate run h _ _
    | none => exact raise _

theorem lessEqual (l r : Value) : Rises (lessEqual run l r) := by
  unfold LuaMachine.lessEqual
  split
  · exact pure _
  · exact pure _
  · apply ite (raise _)
    apply (view _).bind
    intro h
    cases h with
    | some h => exact callPredicate run h _ _
    | none =>
      apply (view _).bind
      intro h
      cases h with
      | some h => exact (callPredicate run h _ _).map
      | none => exact raise _

theorem textRun (finish n : Nat) : Rises (textRun finish n) := by
  induction n generalizing finish with
  | zero => exact pure 0
  | succ n ih => exact (readSlot _).bind fun _ => ite ((ih _).bind fun _ => pure _) (pure 0)

theorem concatStep (total finish : Nat) : Rises (concatStep run total finish) := by
  apply (readSlot _).bind
  intro last
  apply (readSlot _).bind
  intro prev
  apply ite
  · exact (textRun _ _).bind fun _ => (readSlots _ _).bind fun _ => (writeSlot _ _).bind fun _ =>
      pure _
  · apply (view _).bind
    intro h
    cases h with
    | none => exact raise _
    | some h => exact (callHandler run h _).bind fun _ => (writeSlot _ _).bind fun _ => pure 2

theorem concatRange (fuel total finish : Nat) : Rises (concatRange run fuel total finish) := by
  induction fuel generalizing total finish with
  | zero => exact pure ()
  | succ fuel ih => exact ite (pure ()) ((concatStep run _ _).bind fun _ => ih _ _)

theorem getField (v key : Value) : Rises (getField run v key) := by
  cases v with
  | table t => exact (view _).bind fun _ => ite (index run _ key) (pure _)
  | _ => exact index run _ key

end

/-! Operations -/

section

variable (w : Window)

theorem constant (k : Nat) : Rises (w.constant k) := by
  unfold Window.constant
  split
  · exact pure _
  · exact throw _

protected theorem get (r : Nat) : Rises (w.get r) := readSlot _

protected theorem set (r : Nat) (v : Value) : Rises (w.set r v) := writeSlot _ v

theorem rk (x : Nat) : Rises (w.rk x) := ite (constant w _) (Rises.get w x)

theorem upvalue (i : Nat) : Rises (w.upvalue i) := by
  unfold Window.upvalue
  split
  · exact pure _
  · exact throw _

theorem capture (cs : List Capture) (cells : Array CellId) : Rises (w.capture cs cells) := by
  induction cs generalizing cells with
  | nil => exact pure cells
  | cons c cs ih =>
    cases c with
    | register r => exact (findUpvalue _).bind fun _ => ih _
    | upvalue i => exact (upvalue w i).bind fun _ => ih _

theorem loopNumber (r : Nat) (what : String) : Rises (w.loopNumber r what) := by
  apply (Rises.get w r).bind
  intro v
  split
  · exact (Rises.set w r _).bind fun _ => pure _
  · exact raise _

theorem storeList (t : TableId) (slot key n : Nat) : Rises (Window.storeList t slot key n) := by
  induction n generalizing slot key with
  | zero => exact pure ()
  | succ n ih =>
    exact (readSlot slot).bind fun v =>
      (modify (f := (·.modifyHeap fun h => h.modifyTable t (·.setInt key v))) fun _ => rfl).bind
        fun _ => ih _ _

theorem forPrep (a : Nat) : Rises (forPrep w a) :=
  (loopNumber w _ _).bind fun _ => (loopNumber w _ _).bind fun _ => (loopNumber w _ _).bind fun _ =>
    Rises.set w a _

theorem forLoop (a : Nat) : Rises (forLoop w a) := by
  apply (Rises.get w a).bind
  intro i
  apply (Rises.get w _).bind
  intro limit
  apply (Rises.get w _).bind
  intro step
  split
  · exact ite ((Rises.set w a _).bind fun _ => (Rises.set w _ _).bind fun _ => pure true)
      ((Rises.set w _ _).bind fun _ => pure false)
  · exact raise _

theorem makeClosure (child : Nat) (cs : List Capture) : Rises (makeClosure w child cs) := by
  unfold LuaMachine.makeClosure
  split
  · exact throw _
  · exact (capture w cs _).bind fun _ => (onHeap _).bind fun _ => pure _

end

end Rises

end Action

open LuaMachine.Action

section

variable {embedding : Embedding} {run : Run} {w : Window} {op : Operation}

/-- An operation that neither calls nor opens nor closes does not move the top down. -/
theorem rises_perform (hop : op.isControl = false) (hopens : op.opens = none)
    (hcloses : op.closes = false) : Rises (perform embedding run w op) := by
  cases op with
  | call a b c | tailCall a b | ret a b => cases hop
  | tForLoop a c => cases hcloses
  | data => exact .throw _
  | jmp t =>
    exact .pure _
  | loadBool a b skip => exact (Rises.set w _ _).bind fun _ => .pure _
  | loadNil a b =>
    exact .ite ((Rises.throw _).bind fun _ => (Rises.clearSlots _ _).bind fun _ => .pure _)
      ((Rises.clearSlots _ _).bind fun _ => .pure _)
  | move a b => exact (Rises.get w _).bind fun _ => (Rises.set w _ _).bind fun _ => .pure _
  | loadK a i => exact (Rises.constant w _).bind fun _ => (Rises.set w _ _).bind fun _ => .pure _
  | newTable a b c => exact (Rises.newTable _).bind fun _ => (Rises.set w _ _).bind fun _ => .pure _
  | not a b => exact (Rises.get w _).bind fun _ => (Rises.set w _ _).bind fun _ => .pure _
  | getUpval a b =>
    exact (Rises.upvalue w _).bind fun _ => (Rises.view _).bind fun _ =>
      (Rises.set w _ _).bind fun _ => .pure _
  | setUpval a b =>
    exact (Rises.get w _).bind fun v => (Rises.upvalue w _).bind fun c =>
      (Rises.assignUpvalue c v).bind fun _ => .pure _
  | getGlobal a i =>
    exact (Rises.constant w _).bind fun _ => (Rises.index run _ _).bind fun _ =>
      (Rises.set w _ _).bind fun _ => .pure _
  | setGlobal a i =>
    exact (Rises.constant w _).bind fun _ => (Rises.get w _).bind fun _ =>
      (Rises.assign run _ _ _).bind fun _ => .pure _
  | getTable a b c =>
    exact (Rises.get w _).bind fun _ => (Rises.rk w _).bind fun _ =>
      (Rises.getField run _ _).bind fun _ => (Rises.set w _ _).bind fun _ => .pure _
  | setTable a b c =>
    exact (Rises.get w _).bind fun _ => (Rises.rk w _).bind fun _ => (Rises.rk w _).bind fun _ =>
      (Rises.assign run _ _ _).bind fun _ => .pure _
  | self a b c =>
    exact (Rises.get w _).bind fun _ => (Rises.rk w _).bind fun _ => (Rises.set w _ _).bind fun _ =>
      (Rises.index run _ _).bind fun _ => (Rises.set w _ _).bind fun _ => .pure _
  | arith o a b c =>
    exact (Rises.rk w _).bind fun _ => (Rises.rk w _).bind fun _ =>
      (Rises.arith run _ _ _).bind fun _ => (Rises.set w _ _).bind fun _ => .pure _
  | unm a b =>
    exact (Rises.get w _).bind fun _ => (Rises.negate run _).bind fun _ =>
      (Rises.set w _ _).bind fun _ => .pure _
  | len a b =>
    exact (Rises.get w _).bind fun _ => (Rises.length _).bind fun _ =>
      (Rises.set w _ _).bind fun _ => .pure _
  | concat a b c =>
    have hrange : Rises (do
        concatRange run (c - b + 1) (c - b + 1) (w.base + c + 1)
        w.set a (← w.get b)
        pure Flow.next) :=
      (Rises.concatRange run _ _ _).bind fun _ => (Rises.get w _).bind fun _ =>
        (Rises.set w _ _).bind fun _ => .pure _
    exact .ite ((Rises.throw _).bind fun _ => hrange) hrange
  | eq a b c =>
    exact (Rises.rk w _).bind fun _ => (Rises.rk w _).bind fun _ =>
      (Rises.equals run _ _).bind fun _ => .pure _
  | lt a b c =>
    exact (Rises.rk w _).bind fun _ => (Rises.rk w _).bind fun _ =>
      (Rises.lessThan run _ _).bind fun _ => .pure _
  | le a b c =>
    exact (Rises.rk w _).bind fun _ => (Rises.rk w _).bind fun _ =>
      (Rises.lessEqual run _ _).bind fun _ => .pure _
  | test a c => exact (Rises.get w _).bind fun _ => .pure _
  | testSet a b c =>
    exact (Rises.get w _).bind fun _ => .ite ((Rises.set w _ _).bind fun _ => .pure _) (.pure _)
  | forLoop a t => exact (Rises.forLoop w _).bind fun _ => .pure _
  | forPrep a t => exact (Rises.forPrep w _).bind fun _ => .pure _
  | close a => exact (Rises.closeUpvalues _).bind fun _ => .pure _
  | closure a child cs =>
    exact (Rises.makeClosure w child cs).bind fun _ => (Rises.set w _ _).bind fun _ => .pure _
  | setList a b n =>
    cases b with
    | zero => cases hcloses
    | succ b =>
      refine Rises.bind ((Rises.pure _).bind fun n => (Rises.get w a).bind fun v => ?_) fun _ => .pure _
      cases v with
      | table t => exact (Rises.storeList t _ _ _).bind fun _ => .pure ()
      | _ => exact .raise _
  | vararg a b =>
    cases b with
    | zero => cases hopens
    | succ b =>
      exact Rises.bind ((Rises.view _).bind fun n => (Rises.copySlots _ _ _).bind fun _ =>
        Rises.clearSlots _ _) fun _ => .pure _

/-- The top is at the end of the registers of the frame on top. -/
def Machine.AtEnd (m : Machine) : Prop := ∀ f, m.topFrame? = some f → f.top ≤ m.running.top

theorem leaves_resetTop : Leaves Machine.AtEnd resetTop := by
  intro m _ m' h f hf
  unfold resetTop at h
  obtain ⟨o, m₁, ho, h⟩ := bind_eq_ok.1 h
  obtain ⟨rfl, rfl⟩ := EStateM.Result.ok.inj ho
  cases htop : m.topFrame? with
  | none =>
    simp only [htop] at h
    obtain ⟨-, rfl⟩ := EStateM.Result.ok.inj h
    rw [htop] at hf
    cases hf
  | some g =>
    simp only [htop] at h
    obtain ⟨-, rfl⟩ := EStateM.Result.ok.inj h
    obtain rfl : g = f := Option.some.inj (htop.symm.trans hf)
    exact le_rfl

theorem leaves_iterate (a c : Nat) : Leaves Machine.AtEnd (iterate run w a c) := by
  refine .bind fun _ => .bind fun _ => .bind fun _ => .bind fun _ => ?_
  intro m b m' h
  obtain ⟨u, m₁, hreset, h⟩ := bind_eq_ok.1 h
  have hend := leaves_resetTop m u m₁ hreset
  obtain ⟨first, m₂, hread, h⟩ := bind_eq_ok.1 h
  unfold readSlot at hread
  split at hread
  swap
  · cases hread
  obtain ⟨-, rfl⟩ := EStateM.Result.ok.inj hread
  split at h
  · obtain ⟨-, rfl⟩ := EStateM.Result.ok.inj h
    exact hend
  · obtain ⟨u, m₃, hwrite, h⟩ := bind_eq_ok.1 h
    obtain ⟨-, rfl⟩ := EStateM.Result.ok.inj h
    unfold writeSlot at hwrite
    split at hwrite
    · obtain ⟨-, rfl⟩ := EStateM.Result.ok.inj hwrite
      exact hend
    · cases hwrite

theorem leaves_setList (a n : Nat) : Leaves Machine.AtEnd (setList w a 0 n) := by
  refine .bind fun k => .bind fun v => ?_
  cases v with
  | table t => exact .bind fun _ => leaves_resetTop
  | _ => exact fun m a m' h => nomatch h

theorem leaves_spreadSurplus (a : Nat) :
    Leaves (fun m => w.base + a ≤ m.running.top) (spreadSurplus w a 0) := by
  refine .bind fun n => .bind fun _ => .bind fun _ => ?_
  intro m u m' h
  change w.base + a ≤ m'.running.top
  rw [leaves_setTop _ m u m' h]
  exact Nat.le_add_right ..

/-- Where an operation that does not call leaves the top. -/
theorem perform_lands (hop : op.isControl = false) {m m' : Machine} {flow : Flow}
    (h : perform embedding run w op m = .ok flow m') {f : Frame} (hf : m'.topFrame? = some f)
    (hbase : w.base = f.base) : op.Lands f m.running.top m'.running.top := by
  cases hopens : op.opens with
  | some r =>
    cases op with
    | call a b c | tailCall a b => cases hop
    | vararg a b =>
      cases b with
      | succ b => cases hopens
      | zero =>
        obtain ⟨u, m₁, hspread, h⟩ := bind_eq_ok.1 h
        obtain ⟨-, rfl⟩ := EStateM.Result.ok.inj h
        change f.base + a ≤ m₁.running.top
        rw [← hbase]
        exact leaves_spreadSurplus a m u m₁ hspread
    | _ => cases hopens
  | none =>
    unfold Operation.Lands
    rw [hopens]
    cases hcloses : op.closes with
    | false => exact rises_perform hop hopens hcloses m flow m' h
    | true =>
      cases op with
      | call a b c => cases hop
      | tForLoop a c =>
        obtain ⟨u, m₁, hiterate, h⟩ := bind_eq_ok.1 h
        obtain ⟨-, rfl⟩ := EStateM.Result.ok.inj h
        exact leaves_iterate a c m u m₁ hiterate f hf
      | setList a b n =>
        cases b with
        | succ b => cases hcloses
        | zero =>
          obtain ⟨u, m₁, hset, h⟩ := bind_eq_ok.1 h
          obtain ⟨-, rfl⟩ := EStateM.Result.ok.inj h
          exact leaves_setList a n m u m₁ hset f hf
      | _ => cases hcloses

/-- An operation that is followed by the next one falls through. -/
theorem fallsThrough_of_next {m m' : Machine} (h : perform embedding run w op m = .ok .next m') :
    op.fallsThrough = true := by
  cases op with
  | jmp t =>
    exact absurd (EStateM.Result.ok.inj h).1 nofun
  | loadBool a b skip =>
    cases skip with
    | false => rfl
    | true =>
      obtain ⟨u, m₁, -, h⟩ := bind_eq_ok.1 h
      exact absurd (EStateM.Result.ok.inj h).1 nofun
  | forPrep a t =>
    obtain ⟨u, m₁, -, h⟩ := bind_eq_ok.1 h
    exact absurd (EStateM.Result.ok.inj h).1 nofun
  | ret a b =>
    obtain ⟨top, m₁, -, h⟩ := bind_eq_ok.1 h
    obtain ⟨u, m₂, -, h⟩ := bind_eq_ok.1 h
    obtain ⟨v, m₃, -, h⟩ := bind_eq_ok.1 h
    exact absurd (EStateM.Result.ok.inj h).1 nofun
  | _ => rfl

end

end LuaMachine
