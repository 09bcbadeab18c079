import LuaMachine.Proofs.Routine

/-!
Scripts: what host functions and operations may do to the strand that runs them. Operations free slots
and open cells above the first register of their frame, host functions only push results; frames and
coroutines change by calls, resumptions and yields alone. A script that keeps to the rules of the
libraries is a routine.
-/

namespace LuaMachine

/-- Where a script is run. -/
inductive Seat
  /-- In the frame of a host function. -/
  | host
  /-- In the frame of a Lua function with registers from `base` on. -/
  | code (base : Nat)
  /-- Between frames, with nothing of importance from `floor` on. -/
  | between (floor : Nat)

/-- Slots that may be freed or called. -/
def Seat.Frees : Seat → Nat → Prop
  | host, _ => False
  | code base, slot => base ≤ slot
  | between floor, slot => floor ≤ slot

/-- Slots over which a cell may be opened. -/
def Seat.Opens : Seat → Nat → Prop
  | code base, slot => base ≤ slot
  | _, _ => False

/-- What a script may do. Those of host functions may yield and see errors of calls. -/
structure Conduct where
  /-- The prototypes of which it may make closures. -/
  program : Prototype → Prop
  seat : Seat
  /-- Whether it yields in no other way than by `yieldValues` and passes on what calls throw. -/
  honest : Bool
  /-- Whether compiled code makes no difference to it. -/
  strict : Bool

/-- The basic actions of scripts. -/
inductive Elementary (R : Conduct) : {α : Type} → Action α → Prop
  | view {α : Type} (f : Machine → α) (h : R.strict = true → ∀ m, f m.erase = f m) :
    Elementary R (view f)
  | throw {α : Type} (e : Fault) (h : e = .yield → R.seat = .host ∧ R.honest = false) :
    Elementary R (throw e : Action α)
  | readSlot (i : Nat) : Elementary R (readSlot i)
  | writeSlot (i : Nat) (v : Value) : Elementary R (writeSlot i v)
  | setTop (top : Nat) (h : R.seat.Frees top) : Elementary R (setTop top)
  | resetTop : Elementary R resetTop
  | pushValue (v : Value) : Elementary R (pushValue v)
  | ensureStack (n : Nat) : Elementary R (ensureStack n)
  | closeUpvalues (level : Nat) : Elementary R (closeUpvalues level)
  | findUpvalue (slot : Nat) (h : R.seat.Opens slot) : Elementary R (findUpvalue slot)
  | assignUpvalue (c : CellId) (v : Value) : Elementary R (assignUpvalue c v)
  | modifyTable (t : TableId) (f : Table → Table) :
    Elementary R (modify (·.modifyHeap fun h => h.modifyTable t f))
  | setStringMetatable (metatable : Option TableId) : Elementary R (setStringMetatable metatable)
  | newTable (t : Table) : Elementary R (onHeap (·.newTable t))
  | newHostClosure (c : HostClosure) : Elementary R (onHeap (·.newHostClosure c))
  | createCoroutine (body : Value) : Elementary R (createCoroutine body)
  | newCells (vs : List Value) : Elementary R (onHeap (·.newCells vs))
  | newClosure (p : Prototype) (cells : Array CellId) (env : TableId) (hp : R.program p)
      (hcells : R.strict = true → cells.size = p.upvalueCount.toNat) :
    Elementary R (onHeap (·.newClosure { proto := p, upvalues := cells, env := env }))
  | print (text : String) : Elementary R (print text)
  | takeOutput (h : R.strict = false) : Elementary R takeOutput
  | setMode (mode : CompileMode) (h : R.strict = false) : Elementary R (setMode mode)
  | compile (p : Prototype) (hp : R.program p) (h : R.strict = false) :
    Elementary R (compilePrototype p)

/-- Sequences of basic actions. -/
inductive Sequence (R : Conduct) : {α : Type} → Action α → Prop
  | elementary {α : Type} {x : Action α} (h : Elementary R x) : Sequence R x
  | pure {α : Type} (a : α) : Sequence R (Pure.pure a)
  | bind {α β : Type} {x : Action α} {f : α → Action β} (hx : Sequence R x)
      (hf : ∀ a, (∃ m m', x m = .ok a m') → Sequence R (f a)) : Sequence R (x >>= f)

/-- The programs made of basic actions, calls, resumptions and yields. -/
inductive Script (R : Conduct) : {α : Type} → (Run → Action α) → Prop
  | sequence {α : Type} {x : Action α} (h : Sequence R x) : Script R fun _ => x
  | bind {α β : Type} {x : Run → Action α} {f : α → Run → Action β} (hx : Script R x)
      (hf : ∀ a, Gives x a → Script R (f a)) : Script R fun run => x run >>= fun a => f a run
  | callAt {held : List Value} (slot argCount : Nat) (wanted : Option Nat) (h : R.seat.Frees slot) :
    Script R fun run => callAt run slot argCount wanted held
  | callHandler {held : List Value} (f : Value) (args : List Value) :
    Script R fun run => callHandlerHolding run held f args
  | callValue {held : List Value} (f : Value) (args : List Value) :
    Script R fun run => callValueHolding run held f args
  | protectedCall (f : Value) (args : List Value) : Script R fun run => protectedCall run f args
  | resume (c : CoroutineId) (args : List Value) : Script R fun run => resume run c args
  | call (f : Value) (args : List Value) (h : R.seat = .host) : Script R fun run => call run f args
  | tryCall {β : Type} (f : Value) (args : List Value) (h : R.seat = .host)
      {onValues : List Value → Run → Action β} {onError : Fault → Run → Action β}
      (hv : ∀ vs, Script R (onValues vs))
      (he : ∀ e, (e = .yield → R.honest = false) → Script R (onError e)) :
    Script R fun run => do
      match ← attempt (LuaMachine.call run f args) with
      | .ok vs => onValues vs run
      | .error e => onError e run
  | yieldValues {α : Type} (vs : List Value) (h : R.seat = .host) :
    Script R fun _ => (yieldValues vs : Action α)
  | attempt {α : Type} {x : Run → Action α} (hx : Script R x) (hseat : R.seat = .host)
      (hhonest : R.honest = false) : Script R fun run => LuaMachine.attempt (x run)

namespace Sequence

variable {R : Conduct} {α β : Type}

protected theorem view (f : Machine → α) (h : ∀ m, f m.erase = f m) : Sequence R (view f) :=
  .elementary (.view f fun _ => h)

protected theorem throw {e : Fault} (h : e ≠ .yield) : Sequence R (throw e : Action α) :=
  .elementary (.throw e fun he => absurd he h)

protected theorem readSlot (i : Nat) : Sequence R (readSlot i) := .elementary (.readSlot i)

protected theorem writeSlot (i : Nat) (v : Value) : Sequence R (writeSlot i v) :=
  .elementary (.writeSlot i v)

protected theorem setTop {top : Nat} (h : R.seat.Frees top) : Sequence R (setTop top) :=
  .elementary (.setTop top h)

protected theorem ensureStack (n : Nat) : Sequence R (ensureStack n) := .elementary (.ensureStack n)

/-- A step whose result does not matter for what the rest is. -/
theorem andThen {x : Action α} {f : α → Action β} (hx : Sequence R x)
    (hf : ∀ a, Sequence R (f a)) : Sequence R (x >>= f) :=
  hx.bind fun a _ => hf a

theorem ite {c : Prop} [Decidable c] {x y : Action α} (hx : Sequence R x) (hy : Sequence R y) :
    Sequence R (if c then x else y) := by
  split
  · exact hx
  · exact hy

protected theorem raise (c : Complaint) : Sequence R (raise c : Action α) :=
  .andThen (f := fun s => throw (.runtime (.str (s ++ c.message)) none))
    (.view (·.position) fun m => m.erase_position) fun _ => .throw (by simp)

theorem slotwise : Action.Slotwise (fun _ => True) (Sequence R) where
  pure := .pure
  andThen := andThen
  readSlot := .readSlot
  writeSlot _ v := .writeSlot _ v
  mono _ _ := trivial

protected theorem takeSlot (i : Nat) : Sequence R (takeSlot i) := slotwise.takeSlot trivial

protected theorem writeSlots (i : Nat) (vs : List Value) : Sequence R (writeSlots i vs) :=
  slotwise.writeSlots trivial vs

protected theorem clearSlots (i n : Nat) : Sequence R (clearSlots i n) := slotwise.clearSlots trivial n

protected theorem moveSlots (target source n : Nat) : Sequence R (moveSlots target source n) :=
  slotwise.moveSlots trivial trivial n

protected theorem copySlots (target source n : Nat) : Sequence R (copySlots target source n) :=
  slotwise.copySlots trivial source n

protected theorem shiftSlots (finish n : Nat) : Sequence R (shiftSlots finish n) := slotwise.shiftSlots trivial

protected theorem takeSlots (i n : Nat) : Sequence R (takeSlots i n) := slotwise.takeSlots trivial n

protected theorem readSlots (i n : Nat) : Sequence R (readSlots i n) := slotwise.readSlots i n

protected theorem newTable (t : Table) : Sequence R (newTable t) :=
  .andThen (.elementary (.newTable t)) fun _ => .pure _

protected theorem rawSet (t : TableId) (key v : Value) : Sequence R (rawSet t key v) := by
  unfold rawSet
  split
  · exact .elementary (.modifyTable t _)
  · exact .raise _

/-- A prototype of the program can be loaded. -/
protected theorem loadPrototype {p : Prototype} (hp : R.program p) :
    Sequence R (loadPrototype p) := by
  unfold loadPrototype
  split
  · exact .throw (by simp)
  · refine .bind (.elementary (.newCells _)) fun cells hcells => ?_
    have hsize : cells.size = p.upvalueCount.toNat := by
      obtain ⟨m, m', hm⟩ := hcells
      exact (size_of_newCells hm).trans List.length_replicate
    refine .andThen (.view (·.globals) fun _ => rfl) fun env => ?_
    exact .andThen (.elementary (.newClosure p cells env hp fun _ => hsize)) fun id => .pure _

end Sequence

namespace Script

variable {R : Conduct} {α β : Type}

protected theorem elementary {x : Action α} (h : Elementary R x) : Script R fun _ => x :=
  .sequence (.elementary h)

protected theorem pure (a : α) : Script R fun _ => Pure.pure a := .sequence (.pure a)

protected theorem view (f : Machine → α) (h : ∀ m, f m.erase = f m) : Script R fun _ => view f :=
  .sequence (.view f h)

protected theorem throw {e : Fault} (h : e ≠ .yield) :
    Script R fun _ => (throw e : Action α) :=
  .sequence (.throw h)

protected theorem raise (c : Complaint) : Script R fun _ => (raise c : Action α) :=
  .sequence (.raise c)

protected theorem readSlot (i : Nat) : Script R fun _ => readSlot i := .sequence (.readSlot i)

protected theorem writeSlot (i : Nat) (v : Value) : Script R fun _ => writeSlot i v :=
  .sequence (.writeSlot i v)

/-- A step whose result does not matter for what the rest is. -/
theorem andThen {x : Run → Action α} {f : α → Run → Action β} (hx : Script R x)
    (hf : ∀ a, Script R (f a)) : Script R fun run => x run >>= fun a => f a run :=
  hx.bind fun a _ => hf a

theorem ite {c : Prop} [Decidable c] {x y : Run → Action α} (hx : Script R x)
    (hy : Script R y) : Script R fun run => if c then x run else y run := by
  split
  · exact hx
  · exact hy

end Script

namespace Elementary

variable {R : Conduct} {α : Type}

/-- A basic action that keeps to the rules of the libraries is a sequence of theirs. -/
theorem plain {x : Action α} (h : Elementary R x) (hstrict : R.strict = true)
    (hhonest : R.honest = true) : Plain R.program x := by
  cases h with
  | view f h => exact .view f (h hstrict)
  | throw e h => exact .throw fun he => by simp [(h he).2] at hhonest
  | readSlot i => exact .primitive (.readSlot i)
  | writeSlot i v => exact .primitive (.writeSlot i v)
  | setTop top _ => exact .primitive (.setTop top)
  | resetTop =>
    refine .ofTopFrame (fun o => ?_) fun o => ?_
    · cases o <;> rfl
    · cases o with
      | none => exact .pure ()
      | some f => exact .primitive (.setTop _)
  | pushValue v =>
    exact .andThen (.view _ fun _ => rfl) fun _ => .andThen (.primitive (.ensureStack _)) fun _ =>
      .andThen (.primitive (.writeSlot _ _)) fun _ => .primitive (.setTop _)
  | ensureStack n => exact .primitive (.ensureStack n)
  | closeUpvalues level => exact .primitive (.closeUpvalues level)
  | findUpvalue slot _ => exact .primitive (.findUpvalue slot)
  | assignUpvalue c v => exact .primitive (.assignUpvalue c v)
  | modifyTable t f => exact .primitive (.modifyTable t f)
  | setStringMetatable mt => exact .primitive (.setStringMetatable mt)
  | newTable t => exact .primitive (.newTable t)
  | newHostClosure c => exact .primitive (.newHostClosure c)
  | createCoroutine body =>
    exact .ite (.andThen (.raise _) fun _ => .primitive (.newCoroutine body))
      (.primitive (.newCoroutine body))
  | newCells vs => exact .primitive (.newCells vs)
  | newClosure p cells env hp hcells => exact .primitive (.newClosure p cells env hp (hcells hstrict))
  | print text => exact .primitive (.print text)
  | takeOutput h | setMode mode h | compile p hp h => simp [hstrict] at h

end Elementary

theorem Sequence.plain {R : Conduct} {α : Type} {x : Action α} (h : Sequence R x)
    (hstrict : R.strict = true) (hhonest : R.honest = true) : Plain R.program x := by
  induction h with
  | elementary h => exact h.plain hstrict hhonest
  | pure a => exact .pure a
  | bind _ _ ihx ihf => exact .bind ihx ihf

/-- A script that keeps to the rules of the libraries is a routine. -/
theorem Script.routine {R : Conduct} {α : Type} {x : Run → Action α} (h : Script R x)
    (hstrict : R.strict = true) (hhonest : R.honest = true) {k : Bool}
    (hk : R.seat = .host → k = true) : Routine R.program k x := by
  induction h with
  | sequence h => exact .plain (h.plain hstrict hhonest)
  | bind _ _ ihx ihf => exact .bind ihx ihf
  | callAt slot argCount wanted _ => exact .callAt slot argCount wanted
  | callHandler f args => exact .callHandler f args
  | callValue f args => exact .callValue f args
  | protectedCall f args => exact .protectedCall f args
  | resume c args => exact .resume c args
  | call f args _ => exact .call f args
  | tryCall f args _ _ _ ihv ihe => exact .tryCall f args ihv fun e he => ihe e fun h => absurd h he
  | yieldValues vs h =>
    obtain rfl := hk h
    exact .yieldValues vs
  | attempt _ _ h => simp [h] at hhonest

end LuaMachine
