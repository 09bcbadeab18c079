import LuaMachine.Proofs.Drift

/-!
Actions that keep to their part of a stack. Host functions push on the free slots and write nowhere
else; operations write above the first register of their frame. What lies below is retained, and all
that is on other stacks.
-/

namespace LuaMachine

/-- The value in a slot of the stack of an owner, wherever that stack is. -/
def Machine.slot? (m : Machine) (o : Owner) (i : Nat) : Option Value :=
  (m.strand? o).bind (·.stack[i]?)

/-- The free slot is not below a slot, neither before nor after it is set to the end of the registers of
the frame on top. -/
structure Machine.Beyond (k : Nat) (m : Machine) : Prop where
  top : k ≤ m.running.top
  frame : ∀ f, m.topFrame? = some f → k ≤ f.top

/-- The values below a slot of the running stack, and all on other stacks, are as they were. -/
def Machine.Retains (k : Nat) (m m' : Machine) : Prop :=
  ∀ o i v, (o = m.running.owner → i < k) → m.slot? o i = some v → m'.slot? o i = some v

/-- Besides, frames are as they were, and upvalues are opened only over some slots. A host function
leaves the free slot in its frame. -/
structure Machine.Confines (seat : Seat) (opens : Nat → Prop) (k : Nat) (m m' : Machine) : Prop where
  retains : m.Retains k m'
  owner : m'.running.owner = m.running.owner
  frames : m'.running.frames = m.running.frames
  opened : ∀ oc ∈ m'.running.openCells, oc ∈ m.running.openCells ∨ opens oc.slot
  top : seat = .host → k ≤ m'.running.top

/-- An action that writes only what its seat may free, or pushes on the free slots. -/
def Confined {α : Type} (seat : Seat) (opens : Nat → Prop) (x : Action α) : Prop :=
  ∀ (m : Machine) (k : Nat), (seat = .host → m.Beyond k) → (∀ i, seat.Frees i → k ≤ i) →
    m.Confines seat opens k (Outcome.state (x m))

variable {m m' m'' : Machine} {k : Nat} {opens : Nat → Prop} {seat : Seat} {α β : Type}

theorem Seat.Frees.mono {i j : Nat} (h : seat.Frees i) (hij : i ≤ j) : seat.Frees j := by
  cases seat with
  | host => exact h
  | code base | between floor => exact le_trans h hij

theorem Machine.Beyond.congr (h : m.Beyond k) (htop : k ≤ m'.running.top)
    (hframes : m'.running.frames = m.running.frames) : m'.Beyond k :=
  ⟨htop, fun f hf => h.frame f (by rwa [topFrame?, hframes, ← topFrame?] at hf)⟩

namespace Machine

theorem slot?_running (m : Machine) (i : Nat) :
    m.slot? m.running.owner i = m.running.stack[i]? := by
  simp [slot?, strand?]

/-- What is not on the running stack is on one that waits or is kept by a coroutine. -/
theorem slot?_of_ne {o : Owner} (ho : o ≠ m.running.owner) (hparked : m'.parked = m.parked)
    (howner : m'.running.owner = m.running.owner) {i : Nat} {v : Value}
    (hcoroutines : ∀ c s, (m.heap.coroutine c).strand = some s →
      (m'.heap.coroutine c).strand = some s)
    (h : m.slot? o i = some v) : m'.slot? o i = some v := by
  have ho' : m'.running.owner ≠ o := howner ▸ ho.symm
  unfold slot? strand? at h ⊢
  rw [if_neg ho.symm] at h
  rw [if_neg ho', hparked]
  cases hfind : m.parked.find? (·.owner = o) with
  | some s => simpa only [hfind] using h
  | none =>
    simp only [hfind] at h ⊢
    cases o with
    | main n => exact h
    | coroutine c =>
      obtain ⟨s, hs, hi⟩ := Option.bind_eq_some_iff.1 h
      exact Option.bind_eq_some_iff.2 ⟨s, hcoroutines c s hs, hi⟩

/-- A change of the running stack from a slot on. -/
theorem Retains.of_running (howner : m'.running.owner = m.running.owner)
    (hparked : m'.parked = m.parked)
    (hcoroutines : ∀ c s, (m.heap.coroutine c).strand = some s →
      (m'.heap.coroutine c).strand = some s)
    (hstack : ∀ i v, i < k → m.running.stack[i]? = some v → m'.running.stack[i]? = some v) :
    m.Retains k m' := by
  intro o i v hi h
  by_cases ho : o = m.running.owner
  · subst ho
    rw [slot?_running] at h
    rw [← howner, slot?_running]
    exact hstack i v (hi rfl) h
  · exact slot?_of_ne ho hparked howner hcoroutines h

/-- A change outside of stacks. -/
theorem Retains.of_eq (hrunning : m'.running = m.running) (hparked : m'.parked = m.parked)
    (hcoroutines : ∀ c s, (m.heap.coroutine c).strand = some s →
      (m'.heap.coroutine c).strand = some s) : m.Retains k m' :=
  .of_running (by rw [hrunning]) hparked hcoroutines fun i v _ h => by rw [hrunning, h]

namespace Confines

theorem refl (hk : seat = .host → m.Beyond k) : m.Confines seat opens k m :=
  ⟨fun _ _ _ _ h => h, rfl, rfl, fun _ => .inl, fun h => (hk h).top⟩

theorem trans (h : m.Confines seat opens k m') (h' : m'.Confines seat opens k m'') :
    m.Confines seat opens k m'' where
  retains o i v hi hv := h'.retains o i v (fun ho => hi (ho.trans h.owner)) (h.retains o i v hi hv)
  owner := h'.owner.trans h.owner
  frames := h'.frames.trans h.frames
  opened oc hoc := (h'.opened oc hoc).elim (h.opened oc) .inr
  top := h'.top

theorem beyond (h : m.Confines seat opens k m') (hk : seat = .host → m.Beyond k) :
    seat = .host → m'.Beyond k :=
  fun hhost => (hk hhost).congr (h.top hhost) h.frames

/-- A change outside of stacks. -/
theorem of_eq (hk : seat = .host → m.Beyond k) (hrunning : m'.running = m.running)
    (hparked : m'.parked = m.parked)
    (hcoroutines : ∀ c s, (m.heap.coroutine c).strand = some s →
      (m'.heap.coroutine c).strand = some s) : m.Confines seat opens k m' := by
  refine ⟨.of_eq hrunning hparked hcoroutines, by rw [hrunning], by rw [hrunning], fun oc hoc => ?_,
    fun h => by rw [hrunning]; exact (hk h).top⟩
  exact .inl (hrunning ▸ hoc)

/-- A change of values on the running stack and of its free slot. -/
theorem of_stack (m : Machine) (stack : Array Value) {top : Nat} (htop : seat = .host → k ≤ top)
    (hstack : ∀ i v, i < k → m.running.stack[i]? = some v → stack[i]? = some v) :
    m.Confines seat opens k (m.modifyRunning fun s => { s with stack := stack, top := top }) :=
  ⟨.of_running rfl rfl (fun _ _ h => h) hstack, rfl, rfl, fun _ => .inl, htop⟩

end Confines

end Machine

namespace Confined

open Machine (Confines)

theorem bind {x : Action α} {f : α → Action β} (hx : Confined seat opens x)
    (hf : ∀ a, (∃ m m', x m = .ok a m') → Confined seat opens (f a)) :
    Confined seat opens (x >>= f) := by
  intro m k hk hseat
  have h := hx m k hk hseat
  rw [Action.bind_apply]
  split
  · next a m' hok =>
    rw [hok] at h
    exact h.trans (hf a ⟨m, m', hok⟩ m' k (h.beyond hk) hseat)
  · next e m' herror =>
    rw [herror] at h
    exact h

/-- A step whose result does not matter for what the rest is. -/
theorem andThen {x : Action α} {f : α → Action β} (hx : Confined seat opens x)
    (hf : ∀ a, Confined seat opens (f a)) : Confined seat opens (x >>= f) :=
  hx.bind fun a _ => hf a

protected theorem pure (a : α) : Confined seat opens (pure a : Action α) :=
  fun _ _ hk _ => .refl hk

protected theorem throw (e : Fault) : Confined seat opens (throw e : Action α) :=
  fun _ _ hk _ => .refl hk

protected theorem view (f : Machine → α) : Confined seat opens (view f) :=
  fun _ _ hk _ => .refl hk

protected theorem raise (c : Complaint) : Confined seat opens (raise c : Action α) :=
  fun _ _ hk _ => .refl hk

theorem ite {c : Prop} [Decidable c] {x y : Action α} (hx : Confined seat opens x)
    (hy : Confined seat opens y) : Confined seat opens (if c then x else y) := by
  split
  · exact hx
  · exact hy

/-! Registers -/

protected theorem readSlot (i : Nat) : Confined seat opens (readSlot i) := by
  intro m k hk _
  unfold readSlot
  split <;> exact .refl hk

protected theorem writeSlot {i : Nat} (h : seat.Frees i) (v : Value) :
    Confined seat opens (writeSlot i v) := by
  intro m k hk hseat
  unfold writeSlot
  split
  · refine Confines.of_stack m _ (fun hhost => (hk hhost).top) fun j w hj hw => ?_
    have hi := hseat i h
    rwa [Array.getElem?_setIfInBounds_ne (by omega)]
  · exact .refl hk

protected theorem setTop {top : Nat} (h : seat.Frees top) : Confined seat opens (setTop top) :=
  fun m _ _ hseat => Confines.of_stack m _ (fun _ => hseat top h) fun _ _ _ => id

protected theorem resetTop : Confined seat opens resetTop := by
  intro m k hk _
  unfold resetTop
  rw [Action.bind_apply, Action.view_apply]
  cases hf : m.topFrame? with
  | none => exact .refl hk
  | some f => exact Confines.of_stack m _ (fun hhost => (hk hhost).frame f hf) fun _ _ _ => id

protected theorem ensureStack (n : Nat) : Confined seat opens (ensureStack n) := by
  intro m k hk _
  unfold ensureStack
  split
  · exact .refl hk
  · split
    · exact .refl hk
    · refine Confines.of_stack m _ (fun hhost => (hk hhost).top) fun i v _ hv => ?_
      rwa [Array.getElem?_append_left (Array.getElem?_eq_some_iff.1 hv).1]

/-- A value is pushed at the free slot, below which a host function writes nothing. -/
protected theorem pushValue (hhost : seat = .host) (v : Value) :
    Confined seat opens (pushValue v) := by
  intro m k hk hseat
  have htop := (hk hhost).top
  have hensure : Confined seat opens (ensureStack (m.running.top + 1 + Limit.minStack)) :=
    .ensureStack _
  have hgrown := hensure m k hk hseat
  unfold pushValue
  rw [Action.bind_apply, Action.view_apply]
  dsimp only
  rw [Action.bind_apply]
  rcases ensureStack_cases (m.running.top + 1 + Limit.minStack) m with ⟨f, hf⟩ | ⟨e, -, hf⟩
  · rw [hf] at hgrown ⊢
    refine hgrown.trans ?_
    dsimp only
    rw [Action.bind_apply]
    rcases writeSlot_cases m.running.top v (m.modifyRunning (·.modifyStack f)) with hw | hw
    · rw [hw]
      refine Confines.of_stack _ _ (fun _ => htop.trans (Nat.le_succ _)) fun j w hj hw => ?_
      change ((f m.running.stack).setIfInBounds m.running.top v)[j]? = some w
      rwa [Array.getElem?_setIfInBounds_ne (by omega)]
    · rw [hw]
      exact .refl (hgrown.beyond hk)
  · rw [hf] at hgrown ⊢
    exact hgrown

/-- What the seat frees may be written. -/
theorem slotwise : Action.Slotwise seat.Frees (Confined seat opens) where
  pure := .pure
  andThen := andThen
  readSlot := .readSlot
  writeSlot := .writeSlot
  mono := Seat.Frees.mono

/-! Upvalues and the heap -/

protected theorem closeUpvalues (level : Nat) : Confined seat opens (closeUpvalues level) := by
  intro m k hk _
  have hstrand := m.heap.openCells_closeCells m.running level
  obtain ⟨cells, openCells, heq⟩ := m.heap.closeCells_eq m.running level
  rw [heq] at hstrand
  have happly : closeUpvalues level m = .ok () { m with
      heap := { m.heap with cells := cells }
      running := { m.running with openCells := openCells } } := by
    simp only [LuaMachine.closeUpvalues, Action.modify_apply, Machine.modifyBoth, heq]
  rw [happly]
  refine ⟨.of_running rfl rfl (fun _ _ h => h) fun _ _ _ h => h, rfl, rfl, fun oc hoc => .inl ?_,
    fun hhost => (hk hhost).top⟩
  have hopen := congrArg Strand.openCells hstrand
  dsimp only at hopen
  exact List.mem_of_mem_filter (hopen ▸ hoc)

protected theorem findUpvalue {slot : Nat} (h : opens slot) :
    Confined seat opens (findUpvalue slot) := by
  intro m k hk _
  unfold LuaMachine.findUpvalue
  simp only [Action.bind_apply, Action.view_apply]
  cases m.running.openCells.find? (·.slot = slot) with
  | some c => exact .refl hk
  | none =>
    refine ⟨.of_running rfl rfl (fun _ _ h => h) fun _ _ _ h => h, rfl, rfl, fun oc hoc => ?_,
      fun hhost => (hk hhost).top⟩
    rcases List.mem_cons.1 hoc with rfl | hoc
    · exact .inr h
    · exact .inl hoc

theorem onHeap {f : Heap → α × Heap} (hf : ∀ h, (f h).2.coroutines = h.coroutines) :
    Confined seat opens (onHeap f) := by
  refine fun m k hk _ => .of_eq hk rfl rfl fun c s hs => ?_
  change ((f m.heap).2.coroutine c).strand = some s
  rwa [Heap.coroutine, hf, ← Heap.coroutine]

theorem modifyHeap {f : Heap → Heap} (hf : ∀ h, (f h).coroutines = h.coroutines) :
    Confined seat opens (modify (·.modifyHeap f)) := by
  refine fun m k hk _ => .of_eq hk rfl rfl fun c s hs => ?_
  change ((f m.heap).coroutine c).strand = some s
  rwa [Heap.coroutine, hf, ← Heap.coroutine]

protected theorem newTable (t : Table) : Confined seat opens (newTable t) :=
  .andThen (.onHeap fun _ => rfl) fun _ => .pure _

protected theorem rawSet (t : TableId) (key v : Value) : Confined seat opens (rawSet t key v) := by
  unfold rawSet
  split
  · exact .modifyHeap fun _ => rfl
  · exact .raise _

/-- A new coroutine has a stack of its own. -/
protected theorem createCoroutine (body : Value) : Confined seat opens (createCoroutine body) := by
  have hnew : Confined seat opens (LuaMachine.onHeap (·.newCoroutine body)) := by
    refine fun m k hk _ => .of_eq hk rfl rfl fun c s hs => ?_
    have hlt : c.index < m.heap.coroutines.size := by
      by_contra hlt
      rw [Heap.coroutine, Array.getElem?_eq_none (Nat.le_of_not_lt hlt)] at hs
      cases hs
    change (((m.heap.newCoroutine body).2).coroutine c).strand = some s
    simp only [Heap.newCoroutine, Heap.coroutine, Heap.modifyCoroutines,
      Array.getElem?_push_lt hlt] at hs ⊢
    simpa [Array.getElem?_eq_getElem hlt] using hs
  exact .ite (.andThen (.raise _) fun _ => hnew) hnew

protected theorem print (text : String) : Confined seat opens (print text) :=
  fun _ _ hk _ => .of_eq hk rfl rfl fun _ _ h => h

end Confined

/-- Sequences of basic actions that open no upvalues and are confined to their part of the stack. -/
structure Orderly (R : Conduct) {α : Type} (x : Action α) : Prop where
  sequence : Sequence R x
  confined : Confined R.seat (fun _ => False) x

namespace Orderly

variable {R : Conduct}

theorem bind {x : Action α} {f : α → Action β} (hx : Orderly R x)
    (hf : ∀ a, (∃ m m', x m = .ok a m') → Orderly R (f a)) : Orderly R (x >>= f) :=
  ⟨hx.sequence.bind fun a ha => (hf a ha).sequence, hx.confined.bind fun a ha => (hf a ha).confined⟩

/-- A step whose result does not matter for what the rest is. -/
theorem andThen {x : Action α} {f : α → Action β} (hx : Orderly R x) (hf : ∀ a, Orderly R (f a)) :
    Orderly R (x >>= f) :=
  hx.bind fun a _ => hf a

theorem ite {c : Prop} [Decidable c] {x y : Action α} (hx : Orderly R x) (hy : Orderly R y) :
    Orderly R (if c then x else y) :=
  ⟨hx.sequence.ite hy.sequence, hx.confined.ite hy.confined⟩

protected theorem pure (a : α) : Orderly R (pure a : Action α) := ⟨.pure a, .pure a⟩

protected theorem view (f : Machine → α) (h : ∀ m, f m.erase = f m) : Orderly R (view f) :=
  ⟨.view f h, .view f⟩

protected theorem throw {e : Fault} (h : e ≠ .yield) : Orderly R (throw e : Action α) :=
  ⟨.throw h, .throw e⟩

protected theorem raise (c : Complaint) : Orderly R (raise c : Action α) := ⟨.raise c, .raise c⟩

protected theorem readSlot (i : Nat) : Orderly R (readSlot i) := ⟨.readSlot i, .readSlot i⟩

protected theorem ensureStack (n : Nat) : Orderly R (ensureStack n) :=
  ⟨.ensureStack n, .ensureStack n⟩

protected theorem resetTop : Orderly R resetTop := ⟨.elementary .resetTop, .resetTop⟩

protected theorem closeUpvalues (level : Nat) : Orderly R (closeUpvalues level) :=
  ⟨.elementary (.closeUpvalues level), .closeUpvalues level⟩

protected theorem modifyTable (t : TableId) (f : Table → Table) :
    Orderly R (modify (·.modifyHeap fun h => h.modifyTable t f)) :=
  ⟨.elementary (.modifyTable t f), .modifyHeap fun _ => rfl⟩

protected theorem rawSet (t : TableId) (key v : Value) : Orderly R (rawSet t key v) :=
  ⟨.rawSet t key v, .rawSet t key v⟩

protected theorem newTable (t : Table) : Orderly R (newTable t) := ⟨.newTable t, .newTable t⟩

protected theorem pushValue (hhost : R.seat = .host) (v : Value) : Orderly R (pushValue v) :=
  ⟨.elementary (.pushValue v), .pushValue hhost v⟩

variable {i : Nat} (h : R.seat.Frees i)

include h

protected theorem setTop : Orderly R (setTop i) := ⟨.setTop h, .setTop h⟩

protected theorem writeSlot (v : Value) : Orderly R (writeSlot i v) := ⟨.writeSlot i v, .writeSlot h v⟩

omit h in
theorem slotwise : Action.Slotwise R.seat.Frees (Orderly R) where
  pure := .pure
  andThen := andThen
  readSlot := .readSlot
  writeSlot := .writeSlot
  mono := Seat.Frees.mono

protected theorem writeSlots (vs : List Value) : Orderly R (writeSlots i vs) := slotwise.writeSlots h vs

protected theorem clearSlots (n : Nat) : Orderly R (clearSlots i n) := slotwise.clearSlots h n

protected theorem copySlots (source n : Nat) : Orderly R (copySlots i source n) :=
  slotwise.copySlots h source n

protected theorem takeSlot : Orderly R (takeSlot i) := slotwise.takeSlot h

protected theorem takeSlots (n : Nat) : Orderly R (takeSlots i n) := slotwise.takeSlots h n

omit h in
protected theorem shiftSlots {finish n : Nat} (h : R.seat.Frees (finish - n)) :
    Orderly R (shiftSlots finish n) :=
  slotwise.shiftSlots h

omit h in
protected theorem readSlots (i n : Nat) : Orderly R (readSlots i n) := slotwise.readSlots i n

end Orderly

/-- Scripts that open no upvalues and, where that is asked for, are confined to their part of the
stack. -/
inductive Tame (R : Conduct) (strictly : Prop) : {α : Type} → (Run → Action α) → Prop
  | sequence {α : Type} {x : Action α} (h : Sequence R x)
      (hx : Confined R.seat (fun _ => False) x ∨ ¬ strictly ∧ R.seat = .host) :
    Tame R strictly fun _ => x
  | bind {α β : Type} {x : Run → Action α} {f : α → Run → Action β} (hx : Tame R strictly x)
      (hf : ∀ a, Gives x a → Tame R strictly (f a)) :
    Tame R strictly fun run => x run >>= fun a => f a run
  | callAt {held : List Value} (slot argCount : Nat) (wanted : Option Nat) (h : R.seat.Frees slot) :
    Tame R strictly fun run => callAt run slot argCount wanted held
  | callHandler {held : List Value} (f : Value) (args : List Value) :
    Tame R strictly fun run => callHandlerHolding run held f args
  | callValue {held : List Value} (f : Value) (args : List Value) :
    Tame R strictly fun run => callValueHolding run held f args
  | protectedCall (f : Value) (args : List Value) :
    Tame R strictly fun run => protectedCall run f args
  | resume (c : CoroutineId) (args : List Value) : Tame R strictly fun run => resume run c args
  | call (f : Value) (args : List Value) (h : R.seat = .host) :
    Tame R strictly fun run => call run f args
  | tryCall {β : Type} (f : Value) (args : List Value) (h : R.seat = .host)
      {onValues : List Value → Run → Action β} {onError : Fault → Run → Action β}
      (hv : ∀ vs, Tame R strictly (onValues vs))
      (he : ∀ e, (e = .yield → R.honest = false) → Tame R strictly (onError e)) :
    Tame R strictly fun run => do
      match ← attempt (LuaMachine.call run f args) with
      | .ok vs => onValues vs run
      | .error e => onError e run
  | yieldValues {α : Type} (vs : List Value) (h : R.seat = .host) :
    Tame R strictly fun _ => (yieldValues vs : Action α)
  | attempt {α : Type} {x : Run → Action α} (hx : Tame R strictly x) (hseat : R.seat = .host)
      (hhonest : R.honest = false) : Tame R strictly fun run => LuaMachine.attempt (x run)

variable {R : Conduct} {strictly : Prop}

theorem Tame.script {x : Run → Action α} (h : Tame R strictly x) : Script R x := by
  induction h with
  | sequence h _ => exact .sequence h
  | bind _ _ ihx ihf => exact .bind ihx ihf
  | callAt slot argCount wanted h => exact .callAt slot argCount wanted h
  | callHandler f args => exact .callHandler f args
  | callValue f args => exact .callValue f args
  | protectedCall f args => exact .protectedCall f args
  | resume c args => exact .resume c args
  | call f args h => exact .call f args h
  | tryCall f args h _ _ ihv ihe => exact .tryCall f args h ihv ihe
  | yieldValues vs h => exact .yieldValues vs h
  | attempt _ hseat hhonest ih => exact .attempt ih hseat hhonest

/-- Where confinement is not asked for, all scripts of host functions are tame. -/
theorem Script.tame {x : Run → Action α} (h : Script R x) (hhost : R.seat = .host)
    (hfree : ¬ strictly) : Tame R strictly x := by
  induction h with
  | sequence h => exact .sequence h (.inr ⟨hfree, hhost⟩)
  | bind _ _ ihx ihf => exact .bind ihx ihf
  | callAt slot argCount wanted h => exact .callAt slot argCount wanted h
  | callHandler f args => exact .callHandler f args
  | callValue f args => exact .callValue f args
  | protectedCall f args => exact .protectedCall f args
  | resume c args => exact .resume c args
  | call f args h => exact .call f args h
  | tryCall f args h _ _ ihv ihe => exact .tryCall f args h ihv ihe
  | yieldValues vs h => exact .yieldValues vs h
  | attempt _ hseat hhonest ih => exact .attempt ih hseat hhonest

namespace Tame

theorem orderly {x : Action α} (h : Orderly R x) : Tame R strictly fun _ => x :=
  .sequence h.sequence (.inl h.confined)

protected theorem pure (a : α) : Tame R strictly fun _ => Pure.pure a := .orderly (.pure a)

protected theorem view (f : Machine → α) (h : ∀ m, f m.erase = f m) :
    Tame R strictly fun _ => view f :=
  .orderly (.view f h)

protected theorem throw {e : Fault} (h : e ≠ .yield) :
    Tame R strictly fun _ => (throw e : Action α) :=
  .orderly (.throw h)

protected theorem raise (c : Complaint) : Tame R strictly fun _ => (raise c : Action α) :=
  .orderly (.raise c)

protected theorem readSlot (i : Nat) : Tame R strictly fun _ => readSlot i := .orderly (.readSlot i)

protected theorem writeSlot {i : Nat} (h : R.seat.Frees i) (v : Value) :
    Tame R strictly fun _ => writeSlot i v :=
  .orderly (.writeSlot h v)

/-- A step whose result does not matter for what the rest is. -/
theorem andThen {x : Run → Action α} {f : α → Run → Action β} (hx : Tame R strictly x)
    (hf : ∀ a, Tame R strictly (f a)) : Tame R strictly fun run => x run >>= fun a => f a run :=
  hx.bind fun a _ => hf a

/-- What depends on the frame on top must not depend on its unit. -/
theorem ofTopFrame {f : Option Frame → Run → Action α} (hf : ∀ o, f (o.map Frame.erase) = f o)
    (h : ∀ o, Tame R strictly (f o)) :
    Tame R strictly fun run => LuaMachine.view (·.topFrame?) >>= fun o => f o run := by
  have heq (run : Run) := view_topFrame?_bind (f := fun o => f o run) fun o => congrFun (hf o) run
  simp only [heq]
  exact (Tame.view _ Machine.erase_map_topFrame?).andThen h

theorem map {x : Run → Action α} (f : α → β) (hx : Tame R strictly x) :
    Tame R strictly fun run => f <$> x run := by
  simp only [← bind_pure_comp]
  exact hx.andThen fun a => .pure (f a)

theorem ite {c : Prop} [Decidable c] {x y : Run → Action α} (hx : Tame R strictly x)
    (hy : Tame R strictly y) : Tame R strictly fun run => if c then x run else y run := by
  split
  · exact hx
  · exact hy

end Tame

end LuaMachine
