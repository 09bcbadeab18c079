import LuaMachine.Proofs.CallChain
import LuaMachine.Proofs.FrameShift

/-!
Tail calls. The called function takes the place of the one that calls it: its frame is the one it would have
got, had the caller not been there. However many tail calls follow one another, the frames stay as many.
-/

namespace LuaMachine

variable {embedding : Embedding} {run : Run} {m m₁ m' : Machine} {w : Window} {x y slot k : Nat}
  {fs fs₀ : List Frame} {f f₀ g : Frame} {c : ClosureId} {unit : Option CompiledUnit} {v : Value}
  {vs args : List Value} {flow : Flow}

/-! Frames that were entered -/

/-- A frame that a Lua function got when it was called, whatever it did since. -/
def Frame.Entered (f : Frame) : Prop := ∃ c unit argCount tail m m' g,
  enterLua c unit f.slot argCount f.wanted tail m = .ok () m' ∧ m'.topFrame? = some g ∧ f = { g with pc := f.pc }

theorem topFrame?_pushed (m : Machine) (f : Frame) : (m.pushed f).topFrame? = some f :=
  topFrame?_of_append (m.frames_pushed f)

/-- The registers of a frame lie above the function that was called. -/
theorem Frame.Entered.slot_lt (h : f.Entered) : f.slot < f.base := by
  obtain ⟨c, unit, argCount, tail, m, m', g, henter, htop, hf⟩ := h
  rw [enterLua_eq] at henter
  obtain ⟨⟨p, base, top⟩, m₁, hlay, hpush⟩ := Action.bind_eq_ok.1 henter
  obtain ⟨-, rfl⟩ := EStateM.Result.ok.inj hpush
  obtain rfl := Option.some.inj ((topFrame?_pushed _ _).symm.trans htop)
  have hbase := congrArg Frame.base hf
  rw [hbase]
  exact (layOutFrame_eq_ok hlay).1

/-! Calls in place of the caller -/

/-- The frame on top performs `TAILCALL x y` on a value that comes down to a closure, which gets arguments:
those on the stack behind the values that gave way to it. -/
structure Machine.TailCalls (m : Machine) (w : Window) (x y : Nat) (fs : List Frame) (f : Frame)
    (c : ClosureId) (v : Value) (vs args : List Value) : Prop where
  frames : m.running.frames.toList = fs ++ [f]
  entered : f.Entered
  base : w.base = f.base
  held : HoldsFrom m.running.stack (w.base + x) (v :: args)
  count : if y = 0 then m.running.top = w.base + x + 1 + args.length else args.length = y - 1
  chain : m.Redirects v vs (.function (.lua c))
  budget : vs.length < Limit.metaSteps
  closure : c.index < m.heap.closures.size

/-- The machine when the arguments of a call have been counted. -/
def Machine.counted (m : Machine) (w : Window) (x y : Nat) : Machine :=
  if y = 0 then m else m.withTop (w.base + x + y)

theorem callArgs_apply (hcount : if y = 0 then m.running.top = w.base + x + 1 + args.length
    else args.length = y - 1) : w.callArgs x y m = .ok args.length (m.counted w x y) := by
  unfold Window.callArgs Machine.counted
  split
  · next hy =>
    rw [if_pos hy] at hcount
    rw [Window.openCount, Action.bind_ok (Action.view_apply _ m), if_neg (by omega)]
    exact congrArg (EStateM.Result.ok · m) (show m.running.top - (w.base + x) - 1 = _ by omega)
  · next hy =>
    rw [if_neg hy] at hcount
    rw [Action.bind_ok (setTop_apply ..), ← hcount]
    rfl

theorem Machine.stack_vacated (m : Machine) (level : Nat) :
    (m.vacated level).running.stack = m.running.stack := by
  obtain ⟨cells, openCells, heq⟩ := m.heap.closeCells_eq m.running level
  simp only [vacated, popped, modifyBoth, heq]
  rfl

theorem Machine.heap_vacated (m : Machine) (level : Nat) :
    ∃ cells, (m.vacated level).heap = { m.heap with cells := cells } := by
  obtain ⟨cells, openCells, heq⟩ := m.heap.closeCells_eq m.running level
  refine ⟨cells, ?_⟩
  simp only [vacated, popped, modifyBoth, heq]
  rfl

theorem Machine.frames_vacated (m : Machine) (level : Nat) :
    (m.vacated level).running.frames.toList = m.running.frames.toList.dropLast := by
  rw [vacated, frames_popped]
  exact congrArg (·.frames.toList.dropLast) (m.heap.openCells_closeCells m.running level)

theorem Machine.options_vacated (m : Machine) (level : Nat) : (m.vacated level).options = m.options := rfl

theorem Machine.extends_heapWithUnit (m : Machine) (c : ClosureId) :
    m.heap.Extends (m.heapWithUnit c) := by
  unfold heapWithUnit
  split
  · exact .refl _
  · split
    · exact .refl _
    · exact Heap.extends_modifyClosure _ c _

theorem Machine.tables_heapWithUnit (m : Machine) (c : ClosureId) :
    (m.heapWithUnit c).tables = m.heap.tables := by
  unfold heapWithUnit
  split
  · rfl
  · split <;> rfl

/-- The machine that calls a function, with its arguments, where the frame on top was called. -/
def Machine.inPlace (m : Machine) (f : Frame) (stack : Array Value) (args : List Value) : Machine :=
  (m.popped.withStack stack).withTop (f.slot + 1 + args.length)

/-- A frame that a machine has on top, on the strand with these registers. -/
structure Machine.Enters (m : Machine) (fs : List Frame) (g : Frame) (p : Prototype) (args : List Value)
    (t : TableId) : Prop where
  frames : m.running.frames.toList = fs ++ [g]
  top : m.running.top = g.top
  receives : g.Receives p args t m.running.stack

/-- A function was called in place of the one on top: it has the frame that it would have got from the same
call without the other one, on whatever stack that holds the call. -/
structure Machine.Replaces (embedding : Embedding) (run : Run) (m : Machine) (fs : List Frame) (f : Frame)
    (c : ClosureId) (args : List Value) (m' : Machine) : Prop where
  entered : ∃ g t, m'.Enters fs g (m.heap.closure c).proto args t ∧ g.Entered ∧ g.tail = true ∧
    g.slot = f.slot ∧ g.wanted = f.wanted ∧
    ∀ stack, m.running.stack.size ≤ stack.size →
      HoldsFrom stack f.slot (.function (.lua c) :: args) → ∃ m₁ g₁,
        startCall embedding run f.slot args.length f.wanted (m.inPlace f stack args) = .ok .pushed m₁ ∧
        m₁.Enters fs g₁ (m.heap.closure c).proto args t ∧ g = { g₁ with tail := true } ∧
        (∀ j, g.base - g.surplus ≤ j → j < g.top → m'.running.stack[j]? = m₁.running.stack[j]?) ∧
        m'.heap.tables = m₁.heap.tables
  /-- Nothing is open over registers of the frame that is gone. -/
  closed : (∀ oc ∈ m'.running.openCells, oc.slot < f.base) ∧
    ∀ oc ∈ m.running.openCells, f.base ≤ oc.slot → (m'.heap.cell oc.cell).isOpen = false
  options : m'.options = m.options

/-! Replacing the frame on top -/

/-- The called function and its arguments are moved to where the one that calls was. -/
theorem replaceFrame_moves {v : Value} (hfs : m.running.frames.toList = fs ++ [f]) (hslot : f.slot ≤ slot)
    (hheld : HoldsFrom m.running.stack slot (v :: args)) (c : ClosureId) (unit : Option CompiledUnit) :
    ∃ stack, replaceFrame c unit slot args.length m = enterLua c unit f.slot args.length f.wanted true
        (((m.vacated f.base).withStack stack).withTop (f.slot + 1 + args.length)) ∧
      stack.size = m.running.stack.size ∧ HoldsFrom stack f.slot (v :: args) := by
  obtain ⟨stack, hmove, hsize, -, hmid⟩ := moveSlots_apply (m := m.vacated f.base) (n := args.length + 1)
    hslot fun k hk => by
      rw [m.stack_vacated]
      exact hheld.lt_size hk
  rw [m.stack_vacated] at hsize hmid
  refine ⟨stack, ?_, hsize, fun k hk => ?_⟩
  · rw [replaceFrame_of_append hfs]
    exact Action.bind_ok (by rw [moveCall, Action.bind_ok hmove]; rfl)
  · rw [hmid k hk, hheld k hk]

/-- The frame on top is gone, and what it called lies where it was called. -/
structure Machine.Vacates (m : Machine) (fs : List Frame) (f : Frame) (c : ClosureId) (args : List Value)
    (m₁ : Machine) : Prop where
  frames : m₁.running.frames.toList = fs
  options : m₁.options = m.options
  held : HoldsFrom m₁.running.stack f.slot (.function (.lua c) :: args)
  size : m.running.stack.size ≤ m₁.running.stack.size ∧
    m₁.running.stack.size ≤ max m.running.stack.size m.options.maxStack
  tables : m₁.heap.tables = m.heap.tables
  extend : m.heap.Extends m₁.heap
  closed : (∀ oc ∈ m₁.running.openCells, oc.slot < f.base) ∧
    ∀ oc ∈ m.running.openCells, f.base ≤ oc.slot → (m₁.heap.cell oc.cell).isOpen = false

theorem Machine.closed_vacated (m : Machine) (level : Nat) :
    (∀ oc ∈ (m.vacated level).running.openCells, oc.slot < level) ∧
      ∀ oc ∈ m.running.openCells, level ≤ oc.slot →
        ((m.vacated level).heap.cell oc.cell).isOpen = false := by
  refine ⟨fun oc hoc => ?_, fun oc hoc hlevel => ?_⟩
  · change oc ∈ (m.heap.closeCells m.running level).2.openCells at hoc
    rw [m.heap.openCells_closeCells] at hoc
    simpa using (List.mem_filter.1 hoc).2
  · change ((m.heap.closeCells m.running level).1.cell oc.cell).isOpen = false
    cases hcell : (m.heap.closeCells m.running level).1.cell oc.cell with
    | closed v => rfl
    | opened o i => exact absurd rfl ((m.heap.cell_closeCells m.running level hcell).2 oc hoc hlevel)

theorem startTailCall_lua (hchain : m.Redirects v vs (.function (.lua c)))
    (hheld : HoldsFrom m.running.stack slot (v :: args)) (hc : c.index < m.heap.closures.size)
    (hlt : vs.length < Limit.metaSteps) (hroom : m.HasRoomFor slot args vs) (hunit : m.unitOf c = .ok unit)
    (embedding : Embedding) (run : Run) :
    ∃ stack top, m.Redirected slot (.function (.lua c)) vs args stack top ∧
      startTailCall embedding run slot args.length m =
        (replaceFrame c unit slot (vs.reverse ++ args).length >>= fun _ => pure .pushed)
          ((m.relaid stack top).withHeap (m.heapWithUnit c)) := by
  obtain ⟨stack, top, hredirected, hresolve⟩ := hchain.resolve_lua hheld hc hlt hroom
  rw [hunit] at hresolve
  refine ⟨stack, top, hredirected, ?_⟩
  rw [startTailCall, Action.bind_ok hresolve, List.length_append, List.length_reverse, Nat.add_comm vs.length]

theorem startCall_lua (hslot : m.running.stack[slot]? = some (.function (.lua c)))
    (hc : c.index < m.heap.closures.size) (hunit : m.unitOf c = .ok unit) (embedding : Embedding) (run : Run)
    (argCount : Nat) (wanted : Option Nat) :
    startCall embedding run slot argCount wanted m =
      (enterLua c unit slot argCount wanted false >>= fun _ => pure .pushed) (m.withHeap (m.heapWithUnit c)) := by
  have hresolve : resolveCall slot Limit.metaSteps argCount m = _ :=
    resolveCall_lua hc hslot argCount
  rw [hunit] at hresolve
  rw [startCall, Action.bind_ok hresolve]

theorem Machine.exists_withTop_counted (m : Machine) (w : Window) (x y : Nat) :
    ∃ top, m.counted w x y = m.withTop top := by
  unfold counted
  split
  · exact ⟨m.running.top, rfl⟩
  · exact ⟨_, rfl⟩

namespace Machine.TailCalls

variable (h : m.TailCalls w x y fs f c v vs args)

include h

theorem perform_eq_start (embedding : Embedding) (run : Run) :
    perform embedding run w (.tailCall x y) m =
      (startTailCall embedding run (w.base + x) args.length >>= fun o => pure o.flow) (m.counted w x y) := by
  rw [perform, Action.bind_ok (callArgs_apply h.count), ← bind_pure_comp]

/-- A tail call comes down to entering the called function with the frame on top out of the way. -/
theorem perform_eq_enter (hroom : m.HasRoomFor (w.base + x) args vs) (hunit : m.unitOf c = .ok unit)
    (embedding : Embedding) (run : Run) :
    ∃ m₁, m.Vacates fs f c (vs.reverse ++ args) m₁ ∧ perform embedding run w (.tailCall x y) m =
      (enterLua c unit f.slot (vs.reverse ++ args).length f.wanted true >>= fun _ => pure .leave) m₁ := by
  obtain ⟨t, ht⟩ := m.exists_withTop_counted w x y
  obtain ⟨stack, top, hredirected, hstart⟩ := startTailCall_lua (m := m.withTop t)
    (h.chain.congr fun _ => rfl) h.held h.closure h.budget hroom hunit embedding run
  obtain ⟨m₁, hm₁⟩ : ∃ m₁, m₁ =
    ((m.withTop t).relaid stack top).withHeap ((m.withTop t).heapWithUnit c) := ⟨_, rfl⟩
  rw [← hm₁] at hstart
  have hslot : f.slot ≤ w.base + x := h.base ▸ h.entered.slot_lt.le.trans (Nat.le_add_right ..)
  have hfs₁ : m₁.running.frames.toList = fs ++ [f] := by
    rw [hm₁]
    exact h.frames
  have hheld₁ : HoldsFrom m₁.running.stack (w.base + x) (.function (.lua c) :: (vs.reverse ++ args)) := by
    rw [hm₁]
    exact hredirected.held
  obtain ⟨moved, hreplace, hsize, hheld⟩ := replaceFrame_moves hfs₁ hslot hheld₁ c unit
  obtain ⟨cells, hheap⟩ := m₁.heap_vacated f.base
  obtain ⟨hbelow, hclosed⟩ := m₁.closed_vacated f.base
  refine ⟨((m₁.vacated f.base).withStack moved).withTop (f.slot + 1 + (vs.reverse ++ args).length),
    ⟨?_, ?_, hheld, ?_, ?_, ?_, hbelow, ?_⟩, ?_⟩
  · exact (m₁.frames_vacated f.base).trans (by rw [hfs₁, List.dropLast_concat])
  · exact (m₁.options_vacated f.base).trans (by rw [hm₁]; rfl)
  · change _ ≤ moved.size ∧ moved.size ≤ _
    rw [hsize, hm₁]
    exact hredirected.size
  · change (m₁.vacated f.base).heap.tables = _
    rw [hheap, hm₁]
    exact m.tables_heapWithUnit c
  · change m.heap.Extends (m₁.vacated f.base).heap
    rw [hheap, hm₁]
    exact m.extends_heapWithUnit c
  · rw [hm₁] at hclosed ⊢
    exact hclosed
  · rw [h.perform_eq_start, ht, Action.bind_apply, hstart, Action.bind_apply, hreplace, Action.bind_apply]
    cases enterLua c unit f.slot (vs.reverse ++ args).length f.wanted true
      (((m₁.vacated f.base).withStack moved).withTop (f.slot + 1 + (vs.reverse ++ args).length)) <;> rfl

/-- A tail call succeeds only where there is room for its arguments and the closure has a unit if it needs one. -/
theorem resolves_of_ok (hperform : perform embedding run w (.tailCall x y) m = .ok flow m') :
    m.HasRoomFor (w.base + x) args vs ∧ ∃ unit, m.unitOf c = .ok unit := by
  obtain ⟨t, ht⟩ := m.exists_withTop_counted w x y
  have hchain : (m.withTop t).Redirects v vs (.function (.lua c)) := h.chain.congr fun _ => rfl
  rw [h.perform_eq_start, ht] at hperform
  obtain ⟨o, m₁, hstart, -⟩ := Action.bind_eq_ok.1 hperform
  obtain ⟨r, m₂, hresolve, -⟩ := Action.bind_eq_ok.1 hstart
  by_cases hroom : m.HasRoomFor (w.base + x) args vs
  · refine ⟨hroom, ?_⟩
    obtain ⟨stack, top, -, hresolve'⟩ := hchain.resolve_lua (m := m.withTop t) h.held h.closure
      h.budget hroom
    cases hunit : m.unitOf c with
    | ok unit => exact ⟨unit, rfl⟩
    | error e =>
      rw [show (m.withTop t).unitOf c = .error e from hunit, hresolve] at hresolve'
      cases hresolve'
  · obtain ⟨stack, top, -, hresolve'⟩ := hchain.overflows t hroom h.held h.budget.le
    cases hresolve.symm.trans hresolve'

end Machine.TailCalls

theorem Frame.Receives.length_kept {p : Prototype} {t : TableId} {stack : Array Value}
    (h : f.Receives p args t stack) : ((args.drop p.paramCount.toNat).take f.surplus).length = f.surplus := by
  have hsurplus := h.surplus
  rw [List.length_take, List.length_drop]
  split at hsurplus <;> omega

/-- What a frame has received it has all over its registers and the surplus arguments. -/
theorem Frame.Receives.getElem?_eq {p : Prototype} {t : TableId} {stack stack' : Array Value}
    (h : f.Receives p args t stack) (h' : g.Receives p args t stack') (hbase : g.base = f.base)
    (hsurplus : g.surplus = f.surplus) {j : Nat} (hj : f.base - f.surplus ≤ j) (hj' : j < f.top) :
    stack[j]? = stack'[j]? := by
  have hlength := h.length_kept
  have htop := h.top
  rcases Nat.lt_or_ge j f.base with hlt | hge
  · obtain ⟨i, rfl⟩ := Nat.exists_eq_add_of_le hj
    have hi : i < ((args.drop p.paramCount.toNat).take f.surplus).length := by omega
    rw [h.kept i hi, ← hsurplus, ← hbase, ← h'.kept i (hsurplus ▸ hi)]
  · obtain ⟨i, rfl⟩ := Nat.exists_eq_add_of_le hge
    have hi : i < (p.registers args t).length := by omega
    rw [h.registers i hi, ← hbase, ← h'.registers i hi]

theorem Heap.tables_withSurplus {h h' : Heap} (heq : h.tables = h'.tables) (p : Prototype)
    (args : List Value) : (h.withSurplus p args).tables = (h'.withSurplus p args).tables := by
  unfold withSurplus
  split
  · exact congrArg (Array.push · (surplusTable (args.drop p.paramCount.toNat))) heq
  · exact heq

theorem Heap.cells_withSurplus (h : Heap) (p : Prototype) (args : List Value) :
    (h.withSurplus p args).cells = h.cells := by
  unfold withSurplus
  split <;> rfl

/-- The function that takes the place of the one on top is entered as it would be without that. -/
theorem Machine.Vacates.replaces (hv : m.Vacates fs f c args m₁) (hfs : m.running.frames.toList = fs ++ [f])
    (hc : c.index < m.heap.closures.size) (hunit : m.unitOf c = .ok unit) {u : Unit}
    (h : enterLua c unit f.slot args.length f.wanted true m₁ = .ok u m') (embedding : Embedding) (run : Run) :
    m.Replaces embedding run fs f c args m' := by
  obtain ⟨p, hp⟩ : ∃ p, (m.heap.closure c).proto = p := ⟨_, rfl⟩
  have hp₁ : (m₁.heap.closure c).proto = p := (hv.extend.proto hc).trans hp
  have hadmits := admits_of_enterLua h
  rw [hp₁] at hadmits
  obtain ⟨g, stack₁, henter, hg, hreceives, -⟩ := enterLua_apply hp₁ hadmits hv.held.tail unit f.wanted true
  obtain ⟨-, rfl⟩ := EStateM.Result.ok.inj (h.symm.trans henter)
  have hslot : g.slot = f.slot := hg ▸ rfl
  have hwanted : g.wanted = f.wanted := hg ▸ rfl
  rw [hv.tables] at hreceives
  have hframes := Machine.frames_pushed
    (((m₁.withHeap (m₁.heap.withSurplus p args)).withStack stack₁).withTop g.top) g
  refine ⟨⟨g, ⟨m.heap.tables.size⟩, ⟨?_, rfl, hp.symm ▸ hreceives⟩, ?_, hg ▸ rfl, hslot, hwanted,
    fun stack hsize hheld => ?_⟩, ⟨hv.closed.1, fun oc hoc hlevel => ?_⟩, hv.options⟩
  · rw [hframes]
    exact congrArg (· ++ [g]) hv.frames
  · exact ⟨c, unit, args.length, true, m₁, _, g, by rw [hslot, hwanted]; exact henter,
      topFrame?_pushed _ _, rfl⟩
  · obtain ⟨m₂, hm₂⟩ : ∃ m₂, m₂ =
      (m.inPlace f stack args).withHeap ((m.inPlace f stack args).heapWithUnit c) := ⟨_, rfl⟩
    have hp₂ : (m₂.heap.closure c).proto = p := by
      rw [hm₂]
      exact ((m.extends_heapWithUnit c).proto hc).trans hp
    have hpopped : m.popped.running.frames.toList = fs := by
      rw [m.frames_popped, hfs, List.dropLast_concat]
    have hframes₂ : m₂.running.frames.toList = fs := hm₂ ▸ hpopped
    have hadmits₂ : m₂.Admits p f.slot args.length := by
      obtain ⟨hdepth, hroom⟩ := hadmits
      rw [Machine.depth, ← Array.length_toList, hv.frames, hv.options] at hdepth
      rw [hv.options] at hroom
      have hlimit := hv.size.2
      unfold Strand.HasRoom at hroom
      refine ⟨?_, ?_⟩
      · rw [Machine.depth, ← Array.length_toList, hframes₂, hm₂]
        exact hdepth
      · rw [hm₂]
        change _ ≤ max stack.size m.options.maxStack
        omega
    have hheld₂ : HoldsFrom m₂.running.stack (f.slot + 1) args := by
      rw [hm₂]
      exact hheld.tail
    obtain ⟨g₂, stack₂, henter₂, hg₂, hreceives₂, -⟩ :=
      enterLua_apply hp₂ hadmits₂ hheld₂ unit f.wanted false
    have htables : m₂.heap.tables = m.heap.tables := hm₂ ▸ m.tables_heapWithUnit c
    rw [htables] at hreceives₂
    have hslot₂ : g₂.slot = f.slot := hg₂ ▸ rfl
    have hbase : g.base = g₂.base := by rw [hreceives.base, hreceives₂.base, hslot, hslot₂]
    have htop : g.top = g₂.top := by rw [hreceives.top, hreceives₂.top, hbase]
    have hsurplus : g.surplus = g₂.surplus := by rw [hreceives.surplus, hreceives₂.surplus]
    refine ⟨(((m₂.withHeap (m₂.heap.withSurplus p args)).withStack stack₂).withTop g₂.top).pushed g₂, g₂, ?_,
      ⟨?_, rfl, hp.symm ▸ hreceives₂⟩, ?_, fun j hj hj' => ?_, ?_⟩
    · have hstart := startCall_lua (m := m.inPlace f stack args) hheld.head hc hunit embedding run
        args.length f.wanted
      rw [← hm₂] at hstart
      exact hstart.trans (Action.bind_ok henter₂)
    · rw [Machine.frames_pushed]
      exact congrArg (· ++ [g₂]) hframes₂
    · rw [hg, hg₂, hbase, htop]
      rfl
    · exact hreceives.getElem?_eq hreceives₂ hbase.symm hsurplus.symm hj hj'
    · exact Heap.tables_withSurplus (hv.tables.trans htables.symm) p args
  · have hcell := hv.closed.2 oc hoc hlevel
    change (((m₁.heap.withSurplus p args).cells[oc.cell.index]?).getD default).isOpen = false
    rwa [Heap.cells_withSurplus]

/-! One tail call and many -/

/-- Tail calls that follow one another, a number of them. In between the function on top may do anything, so
long as it comes back to its frame. -/
inductive Machine.TailCallRun (embedding : Embedding) (run : Run) : Nat → Machine → Machine → Prop
  | none (m : Machine) : TailCallRun embedding run 0 m m
  | work {k : Nat} {m m₁ m₂ : Machine} {fs : List Frame} {f : Frame} {pc : Nat}
    (h : TailCallRun embedding run k m m₁) (hfs : m₁.running.frames.toList = fs ++ [f])
    (hfs' : m₂.running.frames.toList = fs ++ [{ f with pc := pc }])
    (hdepth : m₂.options.maxDepth = m₁.options.maxDepth) : TailCallRun embedding run k m m₂
  | tailCall {k : Nat} {m m₁ m₂ : Machine} {w : Window} {x y : Nat} {fs : List Frame} {f : Frame}
    {c : ClosureId} {v : Value} {vs args : List Value} {flow : Flow}
    (h : TailCallRun embedding run k m m₁) (hcall : m₁.TailCalls w x y fs f c v vs args)
    (hperform : perform embedding run w (.tailCall x y) m₁ = .ok flow m₂) :
    TailCallRun embedding run (k + 1) m m₂

/-- What is said of a tail call by the frame on top. -/
structure Machine.TailCallsProperly (embedding : Embedding) (run : Run) (m : Machine) (w : Window) (x y : Nat)
    (fs : List Frame) (f : Frame) (c : ClosureId) (vs args : List Value) : Prop where
  /-- Where it succeeds the called function is in the place of the calling one. -/
  replaces : ∀ flow m', perform embedding run w (.tailCall x y) m = .ok flow m' →
    flow = .leave ∧ m.Replaces embedding run fs f c (vs.reverse ++ args) m'
  /-- It succeeds where the closure has a unit if it needs one and there are slots: there is always a frame. -/
  succeeds : m.depth ≤ m.options.maxDepth → (∃ unit, m.unitOf c = .ok unit) →
    m.HasRoomFor (w.base + x) args vs → m.running.HasRoom m.options.maxStack
      ((m.heap.closure c).proto.extent f.slot (vs.reverse ++ args).length) →
    ∃ m', perform embedding run w (.tailCall x y) m = .ok .leave m'

theorem Machine.TailCalls.properly (h : m.TailCalls w x y fs f c v vs args) (embedding : Embedding) (run : Run) :
    m.TailCallsProperly embedding run w x y fs f c vs args where
  replaces flow m' hperform := by
    obtain ⟨hroom, unit, hunit⟩ := h.resolves_of_ok hperform
    obtain ⟨m₁, hv, heq⟩ := h.perform_eq_enter hroom hunit embedding run
    rw [hperform] at heq
    obtain ⟨u, m₂, henter, hflow⟩ := Action.bind_eq_ok.1 heq.symm
    obtain ⟨rfl, rfl⟩ := EStateM.Result.ok.inj hflow
    exact ⟨rfl, hv.replaces h.frames h.closure hunit henter embedding run⟩
  succeeds hdepth hunit hroom hextent := by
    obtain ⟨unit, hunit⟩ := hunit
    obtain ⟨m₁, hv, heq⟩ := h.perform_eq_enter hroom hunit embedding run
    have hadmits : m₁.Admits (m.heap.closure c).proto f.slot (vs.reverse ++ args).length := by
      have hlength := congrArg List.length h.frames
      rw [Array.length_toList, List.length_append, List.length_singleton] at hlength
      refine ⟨?_, ?_⟩
      · rw [depth, ← Array.length_toList, hv.frames, hv.options]
        unfold depth at hdepth
        omega
      · have hsize := hv.size.1
        unfold Strand.HasRoom at hextent ⊢
        rw [hv.options]
        omega
    obtain ⟨g, stack, henter, -⟩ := enterLua_apply (hv.extend.proto h.closure) hadmits hv.held.tail unit
      f.wanted true
    exact ⟨_, heq.trans (Action.bind_ok henter)⟩

/-- The frame on top has the place of the one from which tail calls started, and the frames below are the same. -/
theorem Machine.TailCallRun.frames (h : Machine.TailCallRun embedding run k m m')
    (hfs : m.running.frames.toList = fs ++ [f]) : ∃ g, m'.running.frames.toList = fs ++ [g] ∧
      g.slot = f.slot ∧ g.wanted = f.wanted ∧ m'.options.maxDepth = m.options.maxDepth := by
  induction h with
  | none m => exact ⟨f, hfs, rfl, rfl, rfl⟩
  | work _ hfs₁ hfs₂ hdepth ih =>
    obtain ⟨g, hg, hslot, hwanted, hoptions⟩ := ih hfs
    obtain ⟨rfl, heq⟩ := List.append_inj' (hfs₁.symm.trans hg) rfl
    obtain rfl := List.singleton_inj.1 heq
    exact ⟨_, hfs₂, hslot, hwanted, hdepth.trans hoptions⟩
  | tailCall _ hcall hperform ih =>
    obtain ⟨g, hg, hslot, hwanted, hoptions⟩ := ih hfs
    obtain ⟨rfl, heq⟩ := List.append_inj' (hcall.frames.symm.trans hg) rfl
    obtain rfl := List.singleton_inj.1 heq
    obtain ⟨-, hreplaces⟩ := (hcall.properly embedding run).replaces _ _ hperform
    obtain ⟨g', t, henters, -, -, hslot', hwanted', -⟩ := hreplaces.entered
    exact ⟨g', henters.frames, hslot'.trans hslot, hwanted'.trans hwanted, hreplaces.options ▸ hoptions⟩

/-- Tail calls are proper: the called function gets the frame that it would have got without the calling one,
and after any number of tail calls the next one finds as many frames, and none too many. -/
theorem tail_calls_proper (hrun : Machine.TailCallRun embedding run k m m₁)
    (hcall : m₁.TailCalls w x y fs f c v vs args) (hfs : m.running.frames.toList = fs₀ ++ [f₀]) :
    (fs = fs₀ ∧ f.slot = f₀.slot ∧ f.wanted = f₀.wanted ∧ m₁.depth = m.depth ∧
      (m.depth ≤ m.options.maxDepth → m₁.depth ≤ m₁.options.maxDepth)) ∧
    m₁.TailCallsProperly embedding run w x y fs f c vs args := by
  obtain ⟨g, hg, hslot, hwanted, hoptions⟩ := hrun.frames hfs
  obtain ⟨rfl, heq⟩ := List.append_inj' (hcall.frames.symm.trans hg) rfl
  obtain rfl := List.singleton_inj.1 heq
  have hdepth : m₁.depth = m.depth := by
    rw [Machine.depth, Machine.depth, ← Array.length_toList, ← Array.length_toList, hg, hfs,
      List.length_append, List.length_append]
    rfl
  exact ⟨⟨rfl, hslot, hwanted, hdepth, fun hle => by rwa [hdepth, hoptions]⟩, hcall.properly embedding run⟩

/-! A function that calls its argument with itself, in its own place, and is its argument -/

def Prototype.spin : Prototype :=
  { Prototype.empty "=spin" with
    paramCount := 1
    code := #[(Instruction.abc .move 1 0 0).word, (Instruction.abc .tailCall 0 2 0).word,
      (Instruction.abc .ret 0 1 0).word] }

/-- The machine before the function is called. -/
def Machine.windUp : Machine :=
  let m := Machine.bare.withMode .off
  { m with
    heap := { m.heap with closures := #[⟨.spin, #[], ⟨0⟩, none⟩] }
    running := { m.running with stack := #[.function (.lua ⟨0⟩), .function (.lua ⟨0⟩)], top := 2 } }

def Frame.spin (tail : Bool) : Frame := ⟨.lua ⟨0⟩, none, 0, 1, 3, 0, none, 1, 0, tail⟩

namespace Machine

/-- What the frame does to the machine by an operation. -/
def performed (m : Machine) (op : Operation) : Machine :=
  Outcome.state (perform (fun _ _ => pure 0) (fun _ => throw .outOfFuel) ⟨default, 1⟩ op m)

/-- The machine when the function has a frame. -/
def wound (tail : Bool) : Machine := Outcome.state (enterLua ⟨0⟩ none 0 1 none tail windUp)

/-- The machine when the function is about to call its argument. -/
def spinning : Machine := (wound false).performed (.move 1 0)

/-- The machine when it is so again, after that call. -/
def spun (m : Machine) : Machine := (m.performed (.tailCall 0 2)).performed (.move 1 0)

/-- Whether the frame of the function is the only one. -/
def isInSpin (m : Machine) (tail : Bool) : Bool :=
  match m.running.frames.toList with
  | [⟨.lua ⟨0⟩, none, 0, 1, 3, 0, none, 1, 0, t⟩] => t == tail
  | _ => false

/-- Whether the function is in both registers. -/
def holdsSpin (m : Machine) : Bool :=
  match m.running.stack.toList with
  | _ :: .function (.lua ⟨0⟩) :: .function (.lua ⟨0⟩) :: _ => 0 < m.heap.closures.size
  | _ => false

theorem frames_of_isInSpin {tail : Bool} (h : m.isInSpin tail = true) :
    m.running.frames.toList = [] ++ [.spin tail] := by
  unfold isInSpin at h
  split at h
  · next t hframes => exact hframes.trans (by rw [beq_iff_eq.1 h]; rfl)
  · cases h

theorem spin_entered (tail : Bool) : (Frame.spin tail).Entered := by
  have henter : enterLua ⟨0⟩ none 0 1 none tail windUp = .ok () (wound tail) := rfl
  have htop : (wound tail).topFrame? = some (.spin tail) := rfl
  exact ⟨⟨0⟩, none, 1, tail, windUp, wound tail, .spin tail, henter, htop, rfl⟩

theorem tailCalls_of_isInSpin {tail : Bool} (h : m.isInSpin tail = true) (hheld : m.holdsSpin = true) :
    m.TailCalls ⟨default, 1⟩ 0 2 [] (.spin tail) ⟨0⟩ (.function (.lua ⟨0⟩)) [] [.function (.lua ⟨0⟩)] := by
  unfold holdsSpin at hheld
  split at hheld
  · next hstack =>
    have hclosure : 0 < m.heap.closures.size := by simpa using hheld
    refine ⟨frames_of_isInSpin h, spin_entered tail, rfl, fun k hk => ?_, rfl, .refl _, by decide, hclosure⟩
    rw [← Array.getElem?_toList, hstack]
    match k, hk with
    | 0, _ | 1, _ => rfl
  · cases hheld

/-- Whether the frame is left. -/
def leaves (m : Machine) (op : Operation) : Bool :=
  match perform (fun _ _ => pure 0) (fun _ => throw .outOfFuel) ⟨default, 1⟩ op m with
  | .ok .leave _ => true
  | _ => false

theorem perform_of_leaves {op : Operation} (h : m.leaves op = true) :
    perform (fun _ _ => pure 0) (fun _ => throw .outOfFuel) ⟨default, 1⟩ op m = .ok .leave (m.performed op) := by
  unfold leaves at h
  split at h
  · next m' hperform => rw [performed, hperform]; rfl
  · cases h

theorem TailCallRun.spun (tail : Bool)
    (hrun : TailCallRun (fun _ _ => pure 0) (fun _ => throw .outOfFuel) k m₁ m)
    (hspin : m.isInSpin tail = true) (hheld : m.holdsSpin = true) (hleaves : m.leaves (.tailCall 0 2) = true)
    (hcalled : (m.performed (.tailCall 0 2)).isInSpin true = true) (hmoved : m.spun.isInSpin true = true)
    (hdepth : m.spun.options.maxDepth = (m.performed (.tailCall 0 2)).options.maxDepth) :
    TailCallRun (fun _ _ => pure 0) (fun _ => throw .outOfFuel) (k + 1) m₁ m.spun :=
  .work (.tailCall hrun (tailCalls_of_isInSpin hspin hheld) (perform_of_leaves hleaves))
    (frames_of_isInSpin hcalled) (frames_of_isInSpin hmoved) hdepth

/-- The machine when two tail calls have been made and a third one is due. -/
def spunTwice : Machine := spinning.spun.spun

theorem spunTwice_run : TailCallRun (fun _ _ => pure 0) (fun _ => throw .outOfFuel) 2 spinning spunTwice := by
  have hrun : TailCallRun (fun _ _ => pure 0) (fun _ => throw .outOfFuel) 1 spinning spinning.spun :=
    (TailCallRun.none spinning).spun false (by decide +kernel) (by decide +kernel) (by decide +kernel)
      (by decide +kernel) (by decide +kernel) (by decide +kernel)
  exact hrun.spun true (by decide +kernel) (by decide +kernel) (by decide +kernel) (by decide +kernel)
    (by decide +kernel) (by decide +kernel)

end Machine

theorem tail_calls_proper_spin : ∃ m',
    Machine.spunTwice.depth = Machine.spinning.depth ∧
    perform (fun _ _ => pure 0) (fun _ => throw .outOfFuel) ⟨default, 1⟩ (.tailCall 0 2) Machine.spunTwice =
      .ok .leave m' ∧
    Machine.spunTwice.Replaces (fun _ _ => pure 0) (fun _ => throw .outOfFuel) [] (.spin true) ⟨0⟩
      [.function (.lua ⟨0⟩)] m' := by
  have hfirst : Machine.spinning.isInSpin false = true := by decide +kernel
  have hthird : Machine.spunTwice.isInSpin true = true := by decide +kernel
  obtain ⟨⟨-, -, -, hdepth, -⟩, hproper⟩ := tail_calls_proper Machine.spunTwice_run
    (Machine.tailCalls_of_isInSpin hthird (by decide +kernel)) (Machine.frames_of_isInSpin hfirst)
  have hunit : Machine.spunTwice.unitOf ⟨0⟩ = .ok none := rfl
  obtain ⟨m', hperform⟩ := hproper.succeeds (by decide +kernel) ⟨none, hunit⟩ (fun h => absurd rfl h)
    (le_max_of_le_right (by decide +kernel))
  exact ⟨m', hdepth, hperform, (hproper.replaces _ _ hperform).2⟩

end LuaMachine
