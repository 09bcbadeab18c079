import LuaMachine.Execution
import LuaMachine.Proofs.LibraryScript
import LuaMachine.Proofs.VerifiedCode

/-!
Operations other than calls and returns are scripts, and so routines. All but those that open upvalues
or write them are tame.
-/

namespace LuaMachine

namespace Window

def erase (w : Window) : Window := ⟨w.closure.erase, w.base⟩

@[simp] theorem erase_base (w : Window) : w.erase.base = w.base := rfl
@[simp] theorem erase_closure (w : Window) : w.erase.closure = w.closure.erase := rfl

end Window

/-- Operations do not look at the unit of the running closure. -/
theorem perform_erase (embedding : Embedding) (run : Run) (w : Window) (op : Operation) :
    perform embedding run w.erase op = perform embedding run w op := by
  have hcapture (cs : List Capture) (cells : Array CellId) :
      w.erase.capture cs cells = w.capture cs cells := by
    induction cs generalizing cells with
    | nil => rfl
    | cons c cs ih => cases c <;> simp only [Window.capture, ih] <;> rfl
  have hclosure (child : Nat) (cs : List Capture) :
      makeClosure w.erase child cs = makeClosure w child cs := by
    simp only [makeClosure, hcapture]
    rfl
  cases op with
  | closure a child cs => simp only [perform, hclosure]; rfl
  | _ => rfl

variable {R : Conduct} {strictly : Prop} {w : Window}

/-- Operations of a frame may free its registers. -/
theorem Seat.frees_register {seat : Seat} (hw : seat = .code w.base) {slot : Nat}
    (h : w.base ≤ slot) : seat.Frees slot := by
  rw [hw]
  exact h

theorem Seat.opens_register {seat : Seat} (hw : seat = .code w.base) (r : Nat) :
    seat.Opens (w.base + r) := by
  rw [hw]
  exact Nat.le_add_right ..

/-! Closures and upvalues -/

namespace Sequence

theorem upvalue (i : Nat) : Sequence R (w.upvalue i) := by
  unfold Window.upvalue
  split
  · exact .pure _
  · exact .throw (by simp)

theorem capture (hw : R.seat = .code w.base) (cs : List Capture) (cells : Array CellId) :
    Sequence R (w.capture cs cells) := by
  induction cs generalizing cells with
  | nil => exact .pure cells
  | cons c cs ih =>
    cases c with
    | register r =>
      exact .andThen (.elementary (.findUpvalue _ (Seat.opens_register hw r))) fun _ => ih _
    | upvalue i => exact .andThen (.upvalue i) fun _ => ih _

/-- A captured cell for each capture. -/
theorem returns_capture (cs : List Capture) (cells : Array CellId) :
    Action.Returns (fun r => r.size = cells.size + cs.length) (w.capture cs cells) := by
  induction cs generalizing cells with
  | nil => exact .pure rfl
  | cons c cs ih =>
    have hstep (cell : CellId) : Action.Returns (fun r => r.size = cells.size + (c :: cs).length)
        (w.capture cs (cells.push cell)) := by
      intro m r m' h
      rw [ih _ m r m' h, Array.size_push, List.length_cons]
      omega
    cases c with
    | register r | upvalue r => exact .bind hstep

theorem makeClosure (hw : R.seat = .code w.base) {child : Nat} {cs : List Capture}
    (h : ∀ p, w.closure.proto.children[child]? = some p →
      R.program p ∧ (R.strict = true → cs.length = p.upvalueCount.toNat)) :
    Sequence R (makeClosure w child cs) := by
  unfold LuaMachine.makeClosure
  split
  · exact .throw (by simp)
  · next p hp =>
    obtain ⟨hR, hlength⟩ := h p hp
    refine .bind (.capture hw cs #[]) fun cells ⟨m, m', hcells⟩ => ?_
    have hsize (hstrict : R.strict = true) : cells.size = p.upvalueCount.toNat := by
      rw [← hlength hstrict, returns_capture cs #[] m cells m' hcells]
      exact Nat.zero_add _
    exact .andThen (.elementary (.newClosure p cells _ hR hsize)) fun _ => .pure _

/-- Making a closure, as an operation. -/
theorem performClosure (hw : R.seat = .code w.base) (a : Nat) {child : Nat} {cs : List Capture}
    (h : ∀ p, w.closure.proto.children[child]? = some p →
      R.program p ∧ (R.strict = true → cs.length = p.upvalueCount.toNat)) :
    Sequence R (do
      w.set a (← LuaMachine.makeClosure w child cs)
      Pure.pure Flow.next) :=
  .andThen (.makeClosure hw h) fun _ => .andThen (.writeSlot _ _) fun _ => .pure _

/-- Writing an upvalue, as an operation. -/
theorem performSetUpval (a b : Nat) :
    Sequence R (do
      let v ← w.get a
      let c ← w.upvalue b
      assignUpvalue c v
      Pure.pure Flow.next) :=
  .andThen (.readSlot _) fun v => .andThen (.upvalue b) fun c =>
    .andThen (.elementary (.assignUpvalue c v)) fun _ => .pure _

end Sequence

/-- Making a closure opens upvalues over the registers it captures. -/
theorem Confined.performClosure {seat : Seat} {opens : Nat → Prop} (hw : seat = .code w.base)
    (a child : Nat) {cs : List Capture} (h : ∀ r, .register r ∈ cs → opens (w.base + r)) :
    Confined seat opens (do
      w.set a (← LuaMachine.makeClosure w child cs)
      Pure.pure Flow.next) := by
  have hcapture (cs : List Capture) (cells : Array CellId)
      (h : ∀ r, .register r ∈ cs → opens (w.base + r)) : Confined seat opens (w.capture cs cells) := by
    induction cs generalizing cells with
    | nil => exact .pure cells
    | cons c cs ih =>
      have hrest (cell : CellId) := ih (cells.push cell) fun r hr => h r (List.mem_cons_of_mem c hr)
      cases c with
      | register r => exact .andThen (.findUpvalue (h r List.mem_cons_self)) hrest
      | upvalue i =>
        refine .andThen ?_ hrest
        unfold Window.upvalue
        split
        · exact .pure _
        · exact .throw _
  refine .andThen ?_ fun _ =>
    .andThen (.writeSlot (Seat.frees_register hw (Nat.le_add_right ..)) _) fun _ => .pure _
  unfold makeClosure
  split
  · exact .throw _
  · exact .andThen (hcapture cs #[] h) fun _ => .andThen (.onHeap fun _ => rfl) fun _ => .pure _

namespace Tame

theorem constant (i : Nat) : Tame R strictly fun _ => w.constant i := by
  unfold Window.constant
  split
  · exact .pure _
  · exact .throw (by simp)

protected theorem get (r : Nat) : Tame R strictly fun _ => w.get r := .readSlot _

protected theorem set (hw : R.seat = .code w.base) (r : Nat) (v : Value) :
    Tame R strictly fun _ => w.set r v :=
  .writeSlot (Seat.frees_register hw (Nat.le_add_right ..)) v

theorem rk (x : Nat) : Tame R strictly fun _ => w.rk x := by
  unfold Window.rk
  split
  · exact .constant _
  · exact .get _

theorem upvalue (i : Nat) : Tame R strictly fun _ => w.upvalue i := by
  unfold Window.upvalue
  split
  · exact .pure _
  · exact .throw (by simp)

theorem openCount (r : Nat) : Tame R strictly fun _ => w.openCount r :=
  .andThen (.view _ fun _ => rfl) fun _ =>
    .ite (.andThen (.throw (by simp)) fun _ => .pure _) (.pure _)

theorem callArgs (hw : R.seat = .code w.base) (a b : Nat) : Tame R strictly fun _ => w.callArgs a b := by
  unfold Window.callArgs
  split
  · exact .openCount a
  · exact .andThen (.orderly (.setTop (Seat.frees_register hw (by omega)))) fun _ => .pure _

theorem loopNumber (hw : R.seat = .code w.base) (r : Nat) (what : String) :
    Tame R strictly fun _ => w.loopNumber r what := by
  refine .andThen (.get r) fun v => ?_
  split
  · exact .andThen (.set hw r _) fun _ => .pure _
  · exact .raise _

theorem storeList (t : TableId) (slot key n : Nat) :
    Tame R strictly fun _ => Window.storeList t slot key n := by
  induction n generalizing slot key with
  | zero => exact .pure ()
  | succ n ih =>
    exact .andThen (.readSlot slot) fun _ =>
      .andThen (.orderly (.modifyTable t _)) fun _ => ih _ _

theorem getField (v key : Value) : Tame R strictly fun run => getField run v key := by
  cases v with
  | table t => exact .andThen (.view _ fun _ => rfl) fun _ => .ite (.index _ key) (.pure _)
  | _ => exact .index _ key

theorem forPrep (hw : R.seat = .code w.base) (a : Nat) : Tame R strictly fun _ => forPrep w a :=
  .andThen (.loopNumber hw _ _) fun _ => .andThen (.loopNumber hw _ _) fun _ =>
    .andThen (.loopNumber hw _ _) fun _ => .set hw a _

theorem forLoop (hw : R.seat = .code w.base) (a : Nat) : Tame R strictly fun _ => forLoop w a := by
  refine .andThen (.get a) fun i => .andThen (.get _) fun limit => .andThen (.get _) fun step => ?_
  split
  · exact .ite (.andThen (.set hw a _) fun _ => .andThen (.set hw _ _) fun _ => .pure true)
      (.andThen (.set hw _ _) fun _ => .pure false)
  · exact .raise _

theorem iterate (hw : R.seat = .code w.base) (a c : Nat) :
    Tame R strictly fun run => iterate run w a c :=
  have hfrees {slot : Nat} (h : w.base ≤ slot) : R.seat.Frees slot := Seat.frees_register hw h
  .andThen (.orderly (.ensureStack _)) fun _ =>
    .andThen (.orderly (.copySlots (hfrees (by omega)) _ _)) fun _ =>
      .andThen (.orderly (.setTop (hfrees (by omega)))) fun _ =>
        .andThen (.callAt _ _ _ (hfrees (by omega))) fun _ =>
          .andThen (.orderly .resetTop) fun _ => .andThen (.readSlot _) fun _ =>
            .ite (.pure true) (.andThen (.writeSlot (hfrees (by omega)) _) fun _ => .pure false)

theorem setList (a b batch : Nat) : Tame R strictly fun _ => setList w a b batch := by
  refine .ite (.andThen (.openCount a) ?_) (.andThen (.pure b) ?_)
  all_goals
    intro n
    refine .andThen (.get a) fun v => ?_
    cases v with
    | table t => exact .andThen (.storeList t _ _ _) fun _ => .ite (.orderly .resetTop) (.pure ())
    | _ => exact .raise _

theorem spreadSurplus (hw : R.seat = .code w.base) (a b : Nat) :
    Tame R strictly fun _ => spreadSurplus w a b :=
  have hfrees {slot : Nat} (h : w.base ≤ slot) : R.seat.Frees slot := Seat.frees_register hw h
  .andThen (.view _ fun m => by cases h : m.topFrame? <;> simp [h]) fun _ =>
    .ite (.andThen (.orderly (.ensureStack _)) fun _ =>
        .andThen (.orderly (.copySlots (hfrees (by omega)) _ _)) fun _ =>
          .orderly (.setTop (hfrees (by omega))))
      (.andThen (.orderly (.copySlots (hfrees (by omega)) _ _)) fun _ =>
        .orderly (.clearSlots (hfrees (by omega)) _))

/-- Operations that neither call nor return, nor open upvalues or write them. -/
theorem perform (embedding : Embedding) (hw : R.seat = .code w.base) {op : Operation}
    (hop : op.isControl = false) (hassign : ∀ a b, op ≠ .setUpval a b)
    (hclosure : ∀ a child cs, op ≠ .closure a child cs) :
    Tame R strictly fun run => perform embedding run w op := by
  cases op with
  | call a b c | tailCall a b | ret a b => simp [Operation.isControl] at hop
  | data => exact .throw (by simp)
  | jmp t => exact .pure _
  | loadBool a b skip => exact .andThen (.set hw _ _) fun _ => .pure _
  | loadNil a b =>
    have hclear : Tame R strictly fun _ => (do
        LuaMachine.clearSlots (w.base + a) (b + 1 - a)
        Pure.pure Flow.next) :=
      .andThen (.orderly (.clearSlots (Seat.frees_register hw (by omega)) _)) fun _ => .pure _
    exact .ite (.andThen (.throw (by simp)) fun _ => hclear) hclear
  | move a b => exact .andThen (.get _) fun _ => .andThen (.set hw _ _) fun _ => .pure _
  | loadK a i => exact .andThen (.constant _) fun _ => .andThen (.set hw _ _) fun _ => .pure _
  | newTable a b c =>
    exact .andThen (.orderly (.newTable _)) fun _ => .andThen (.set hw _ _) fun _ => .pure _
  | not a b => exact .andThen (.get _) fun _ => .andThen (.set hw _ _) fun _ => .pure _
  | getUpval a b =>
    exact .andThen (.upvalue _) fun c => .andThen (.view _ fun m => m.erase_cellValue c) fun _ =>
      .andThen (.set hw _ _) fun _ => .pure _
  | setUpval a b => exact absurd rfl (hassign a b)
  | getGlobal a i =>
    exact .andThen (.constant _) fun _ => .andThen (.index _ _) fun _ =>
      .andThen (.set hw _ _) fun _ => .pure _
  | setGlobal a i =>
    exact .andThen (.constant _) fun _ => .andThen (.get _) fun _ =>
      .andThen (.assign _ _ _) fun _ => .pure _
  | getTable a b c =>
    exact .andThen (.get _) fun _ => .andThen (.rk _) fun _ => .andThen (.getField _ _) fun _ =>
      .andThen (.set hw _ _) fun _ => .pure _
  | setTable a b c =>
    exact .andThen (.get _) fun _ => .andThen (.rk _) fun _ => .andThen (.rk _) fun _ =>
      .andThen (.assign _ _ _) fun _ => .pure _
  | self a b c =>
    exact .andThen (.get _) fun _ => .andThen (.rk _) fun _ => .andThen (.set hw _ _) fun _ =>
      .andThen (.index _ _) fun _ => .andThen (.set hw _ _) fun _ => .pure _
  | arith o a b c =>
    exact .andThen (.rk _) fun _ => .andThen (.rk _) fun _ => .andThen (.arith _ _ _) fun _ =>
      .andThen (.set hw _ _) fun _ => .pure _
  | unm a b =>
    exact .andThen (.get _) fun _ => .andThen (.negate _) fun _ => .andThen (.set hw _ _) fun _ =>
      .pure _
  | len a b =>
    exact .andThen (.get _) fun _ => .andThen (.length _) fun _ => .andThen (.set hw _ _) fun _ =>
      .pure _
  | concat a b c =>
    have hrange : Tame R strictly fun run => (do
        concatRange run (c - b + 1) (c - b + 1) (w.base + c + 1)
        w.set a (← w.get b)
        Pure.pure Flow.next) :=
      .andThen (.concatRange _ (Seat.frees_register hw (by omega))) fun _ =>
        .andThen (.get _) fun _ => .andThen (.set hw _ _) fun _ => .pure _
    exact .ite (.andThen (.throw (by simp)) fun _ => hrange) hrange
  | eq a b c =>
    exact .andThen (.rk _) fun _ => .andThen (.rk _) fun _ => .andThen (.equals _ _) fun _ => .pure _
  | lt a b c =>
    exact .andThen (.rk _) fun _ => .andThen (.rk _) fun _ => .andThen (.lessThan _ _) fun _ =>
      .pure _
  | le a b c =>
    exact .andThen (.rk _) fun _ => .andThen (.rk _) fun _ => .andThen (.lessEqual _ _) fun _ =>
      .pure _
  | test a c => exact .andThen (.get _) fun _ => .pure _
  | testSet a b c =>
    exact .andThen (.get _) fun _ => .ite (.andThen (.set hw _ _) fun _ => .pure _) (.pure _)
  | forLoop a t => exact .andThen (.forLoop hw _) fun _ => .pure _
  | forPrep a t => exact .andThen (.forPrep hw _) fun _ => .pure _
  | tForLoop a c => exact .andThen (.iterate hw _ _) fun _ => .pure _
  | setList a b n => exact .andThen (.setList _ _ _) fun _ => .pure _
  | close a => exact .andThen (.orderly (.closeUpvalues _)) fun _ => .pure _
  | closure a child cs => exact absurd rfl (hclosure a child cs)
  | vararg a b => exact .andThen (.spreadSurplus hw _ _) fun _ => .pure _

end Tame

namespace Script

theorem iterate (hw : R.seat = .code w.base) (a c : Nat) : Script R fun run => iterate run w a c :=
  have h : Tame R False fun run => LuaMachine.iterate run w a c := .iterate hw a c
  h.script

theorem callArgs (hw : R.seat = .code w.base) (a b : Nat) : Script R fun _ => w.callArgs a b :=
  have h : Tame R False fun _ => w.callArgs a b := .callArgs hw a b
  h.script

theorem perform (embedding : Embedding) (hw : R.seat = .code w.base) {op : Operation}
    (hop : op.isControl = false) (hclosure : ∀ a child cs, op = .closure a child cs →
      ∀ p, w.closure.proto.children[child]? = some p →
        R.program p ∧ (R.strict = true → cs.length = p.upvalueCount.toNat)) :
    Script R fun run => perform embedding run w op := by
  have htame (hassign : ∀ a b, op ≠ .setUpval a b) (hcl : ∀ a child cs, op ≠ .closure a child cs) :
      Tame R False fun run => LuaMachine.perform embedding run w op :=
    .perform embedding hw hop hassign hcl
  cases op with
  | closure a child cs => exact .sequence (.performClosure hw a (hclosure a child cs rfl))
  | setUpval a b => exact .sequence (.performSetUpval a b)
  | _ => exact (htame nofun nofun).script

end Script

namespace Routine

variable {U : Prototype → Prop} {k : Bool} {w : Window}

theorem callArgs (a b : Nat) : Routine U k fun _ => w.callArgs a b :=
  (Script.callArgs (R := ⟨U, .code w.base, true, true⟩) rfl a b).routine rfl rfl nofun

/-- Operations other than calls and returns are routines. -/
theorem perform (embedding : Embedding) {op : Operation} (hop : op.isControl = false)
    (hclosure : ∀ a child cs, op = .closure a child cs →
      ∀ p, w.closure.proto.children[child]? = some p → U p ∧ cs.length = p.upvalueCount.toNat) :
    Routine U k fun run => perform embedding run w op :=
  (Script.perform (R := ⟨U, .code w.base, true, true⟩) embedding rfl hop
    fun a child cs heq p hp => (hclosure a child cs heq p hp).imp_right fun h _ => h).routine
      rfl rfl nofun

end Routine

end LuaMachine
