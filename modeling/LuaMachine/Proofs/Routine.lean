import LuaMachine.Coroutines
import LuaMachine.HostCall
import LuaMachine.Index
import LuaMachine.Proofs.References
import LuaMachine.Session
import LuaMachine.Upvalue

/-!
Routines: what host functions and most operations are made of. A routine reads and changes values,
and has other code run only by calls and resumptions; it has no hand in frames, compiled code or
the state of coroutines.
-/

namespace LuaMachine

/-- The basic actions of routines. New closures are over prototypes of a program. -/
inductive Primitive (U : Prototype → Prop) : {α : Type} → Action α → Prop
  | view {α : Type} (f : Machine → α) (h : ∀ m, f m.erase = f m) : Primitive U (view f)
  | throw {α : Type} (e : Fault) (h : e ≠ .yield) : Primitive U (throw e : Action α)
  | readSlot (i : Nat) : Primitive U (readSlot i)
  | writeSlot (i : Nat) (v : Value) : Primitive U (writeSlot i v)
  | setTop (top : Nat) : Primitive U (setTop top)
  | ensureStack (n : Nat) : Primitive U (ensureStack n)
  | closeUpvalues (level : Nat) : Primitive U (closeUpvalues level)
  | findUpvalue (slot : Nat) : Primitive U (findUpvalue slot)
  | assignUpvalue (c : CellId) (v : Value) : Primitive U (assignUpvalue c v)
  | modifyTable (t : TableId) (f : Table → Table) :
    Primitive U (modify (·.modifyHeap fun h => h.modifyTable t f))
  | setStringMetatable (metatable : Option TableId) : Primitive U (setStringMetatable metatable)
  | newTable (t : Table) : Primitive U (onHeap (·.newTable t))
  | newHostClosure (c : HostClosure) : Primitive U (onHeap (·.newHostClosure c))
  | newCoroutine (body : Value) : Primitive U (onHeap (·.newCoroutine body))
  | newCells (vs : List Value) : Primitive U (onHeap (·.newCells vs))
  | newClosure (p : Prototype) (cells : Array CellId) (env : TableId) (hU : U p)
      (hcells : cells.size = p.upvalueCount.toNat) :
    Primitive U (onHeap (·.newClosure { proto := p, upvalues := cells, env := env }))
  | print (text : String) : Primitive U (print text)

/-- Sequences of basic actions. What follows an action is asked for the values it can give. -/
inductive Plain (U : Prototype → Prop) : {α : Type} → Action α → Prop
  | primitive {α : Type} {x : Action α} (h : Primitive U x) : Plain U x
  | pure {α : Type} (a : α) : Plain U (Pure.pure a)
  | bind {α β : Type} {x : Action α} {f : α → Action β} (hx : Plain U x)
      (hf : ∀ a, (∃ m m', x m = .ok a m') → Plain U (f a)) :
    Plain U (x >>= f)

/-- A value that a program can give. -/
def Gives {α : Type} (x : Run → Action α) (a : α) : Prop := ∃ run m m', x run m = .ok a m'

/-- The programs made of basic actions and calls. Only some may end by suspending the coroutine
that runs them. -/
inductive Routine (U : Prototype → Prop) : Bool → {α : Type} → (Run → Action α) → Prop
  | plain {k : Bool} {α : Type} {x : Action α} (h : Plain U x) : Routine U k fun _ => x
  | bind {k : Bool} {α β : Type} {x : Run → Action α} {f : α → Run → Action β}
      (hx : Routine U k x) (hf : ∀ a, Gives x a → Routine U k (f a)) :
    Routine U k fun run => x run >>= fun a => f a run
  | callAt {k : Bool} {held : List Value} (slot argCount : Nat) (wanted : Option Nat) :
    Routine U k fun run => callAt run slot argCount wanted held
  | call {k : Bool} (f : Value) (args : List Value) : Routine U k fun run => call run f args
  | tryCall {k : Bool} {β : Type} (f : Value) (args : List Value)
      {onValues : List Value → Run → Action β} {onError : Fault → Run → Action β}
      (hv : ∀ vs, Routine U k (onValues vs)) (he : ∀ e, e ≠ .yield → Routine U k (onError e)) :
    Routine U k fun run => do
      match ← attempt (LuaMachine.call run f args) with
      | .ok vs => onValues vs run
      | .error e => onError e run
  | protectedCall {k : Bool} (f : Value) (args : List Value) :
    Routine U k fun run => protectedCall run f args
  | resume {k : Bool} (c : CoroutineId) (args : List Value) :
    Routine U k fun run => resume run c args
  | yieldValues {α : Type} (vs : List Value) : Routine U true fun _ => (yieldValues vs : Action α)

theorem Heap.size_addCells (h : Heap) (ids : Array CellId) (vs : List Value) :
    (h.addCells ids vs).1.size = ids.size + vs.length := by
  induction vs generalizing ids h with
  | nil => rfl
  | cons v vs ih =>
    rw [addCells, ih, Array.size_push, List.length_cons]
    omega

@[simp]
theorem Heap.size_newCells (h : Heap) (vs : List Value) : (h.newCells vs).1.size = vs.length := by
  rw [newCells_eq_addCells, size_addCells, Array.size_empty, Nat.zero_add]

theorem size_of_newCells {vs : List Value} {cells : Array CellId} {m m' : Machine}
    (h : onHeap (·.newCells vs) m = .ok cells m') : cells.size = vs.length := by
  obtain ⟨hcells, -⟩ := EStateM.Result.ok.inj h
  exact hcells ▸ m.heap.size_newCells vs

theorem Machine.erase_map_topFrame? (m : Machine) :
    m.erase.topFrame?.map Frame.erase = m.topFrame?.map Frame.erase := by
  cases hm : m.topFrame? <;> simp [hm, Frame.erase]

/-- Where its unit does not matter, the frame on top can as well be looked at without it. -/
theorem view_topFrame?_bind {α : Type} {f : Option Frame → Action α} (hf : ∀ o, f (o.map Frame.erase) = f o) :
    view (·.topFrame?) >>= f = view (·.topFrame?.map Frame.erase) >>= f := by
  funext m
  exact (congrFun (hf m.topFrame?) m).symm

namespace Plain

variable {U : Prototype → Prop} {α β : Type}

protected theorem view (f : Machine → α) (h : ∀ m, f m.erase = f m) : Plain U (view f) :=
  .primitive (.view f h)

protected theorem throw {e : Fault} (h : e ≠ .yield) : Plain U (throw e : Action α) :=
  .primitive (.throw e h)

/-- A step whose result does not matter for what the rest is. -/
theorem andThen {x : Action α} {f : α → Action β} (hx : Plain U x) (hf : ∀ a, Plain U (f a)) :
    Plain U (x >>= f) :=
  hx.bind fun a _ => hf a

theorem ite {c : Prop} [Decidable c] {x y : Action α} (hx : Plain U x) (hy : Plain U y) :
    Plain U (if c then x else y) := by
  split
  · exact hx
  · exact hy

/-- What depends on the frame on top must not depend on its unit. -/
theorem ofTopFrame {f : Option Frame → Action α} (hf : ∀ o, f (o.map Frame.erase) = f o)
    (h : ∀ o, Plain U (f o)) : Plain U (LuaMachine.view (·.topFrame?) >>= f) := by
  rw [view_topFrame?_bind hf]
  exact (Plain.view _ Machine.erase_map_topFrame?).andThen h

protected theorem raise (c : Complaint) : Plain U (raise c : Action α) :=
  .andThen (f := fun s => throw (.runtime (.str (s ++ c.message)) none))
    (.view (·.position) fun m => m.erase_position) fun _ => .throw (by simp)

/-- Every slot may be written. -/
theorem slotwise : Action.Slotwise (fun _ => True) (Plain U) where
  pure := .pure
  andThen := andThen
  readSlot i := .primitive (.readSlot i)
  writeSlot _ v := .primitive (.writeSlot _ v)
  mono _ _ := trivial

protected theorem takeSlot (i : Nat) : Plain U (takeSlot i) := slotwise.takeSlot trivial

protected theorem writeSlots (i : Nat) (vs : List Value) : Plain U (writeSlots i vs) :=
  slotwise.writeSlots trivial vs

protected theorem clearSlots (i n : Nat) : Plain U (clearSlots i n) := slotwise.clearSlots trivial n

protected theorem moveSlots (target source n : Nat) : Plain U (moveSlots target source n) :=
  slotwise.moveSlots trivial trivial n

protected theorem shiftSlots (finish n : Nat) : Plain U (shiftSlots finish n) := slotwise.shiftSlots trivial

protected theorem takeSlots (i n : Nat) : Plain U (takeSlots i n) := slotwise.takeSlots trivial n

protected theorem newTable (t : Table) : Plain U (newTable t) :=
  .andThen (.primitive (.newTable t)) fun _ => .pure _

/-- A prototype of the program can be loaded. -/
protected theorem loadPrototype {p : Prototype} (hp : U p) : Plain U (loadPrototype p) := by
  unfold loadPrototype
  split
  · exact .throw (by simp)
  · refine .bind (.primitive (.newCells _)) fun cells hcells => ?_
    have hsize : cells.size = p.upvalueCount.toNat := by
      obtain ⟨m, m', hm⟩ := hcells
      exact (size_of_newCells hm).trans List.length_replicate
    refine .andThen (.view (·.globals) fun _ => rfl) fun env => ?_
    exact .andThen (.primitive (.newClosure p cells env hp hsize)) fun id => .pure _

protected theorem placeCall (f : Value) (args : List Value) : Plain U (placeCall f args) :=
  .andThen (.view (·.callBase) fun m => m.erase_callBase) fun slot =>
    .andThen (.primitive (.ensureStack _)) fun _ => .andThen (.primitive (.writeSlot slot f)) fun _ =>
      .andThen (.writeSlots _ args) fun _ => .andThen (.primitive (.setTop _)) fun _ => .pure slot

end Plain

namespace Routine

variable {U : Prototype → Prop} {k : Bool} {α β : Type}

protected theorem primitive {x : Action α} (h : Primitive U x) : Routine U k fun _ => x :=
  .plain (.primitive h)

protected theorem pure (a : α) : Routine U k fun _ => Pure.pure a := .plain (.pure a)

protected theorem view (f : Machine → α) (h : ∀ m, f m.erase = f m) :
    Routine U k fun _ => view f :=
  .plain (.view f h)

protected theorem throw {e : Fault} (h : e ≠ .yield) :
    Routine U k fun _ => (throw e : Action α) :=
  .plain (.throw h)

theorem andThen {x : Run → Action α} {f : α → Run → Action β} (hx : Routine U k x)
    (hf : ∀ a, Routine U k (f a)) : Routine U k fun run => x run >>= fun a => f a run :=
  hx.bind fun a _ => hf a

/-! Calls from native code -/

protected theorem callHandler {held : List Value} (f : Value) (args : List Value) :
    Routine U k fun run => callHandlerHolding run held f args :=
  .andThen (.plain (.placeCall f args)) fun slot => .andThen (.callAt slot _ _) fun _ =>
    .andThen (.plain (.takeSlot slot)) fun v => .andThen (.primitive (.setTop slot)) fun _ => .pure v

protected theorem callValue {held : List Value} (f : Value) (args : List Value) :
    Routine U k fun run => callValueHolding run held f args :=
  .andThen (.plain (.placeCall f args)) fun slot => .andThen (.callAt slot _ _) fun _ =>
    .andThen (.view (·.running.top) fun _ => rfl) fun _ =>
      .andThen (.plain (.takeSlots slot _)) fun vs =>
        .andThen (.primitive (.setTop slot)) fun _ => .pure vs

end Routine

end LuaMachine
