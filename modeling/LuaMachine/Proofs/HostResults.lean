import LuaMachine.Proofs.Arguments
import LuaMachine.Proofs.FunctionCall

/-!
Calls of host functions. A host function finds its arguments in its frame; what it pushes there is what its
caller gets, unless the stack overflows.
-/

namespace LuaMachine

variable {m m' : Machine} {args vs : List Value} {v : Value} {n slot : Nat} {t : TableId} {wanted : Option Nat}
  {u : Unit}

/-! Room for what is pushed -/

/-- A stack that was made larger has room for as much as before. -/
theorem hasRoom_of_ensureStack (h : ensureStack n m = .ok u m') (k : Nat) :
    m'.running.HasRoom m.options.maxStack k ↔ m.running.HasRoom m.options.maxStack k := by
  unfold ensureStack at h
  split at h
  · obtain ⟨-, rfl⟩ := EStateM.Result.ok.inj h
    rfl
  · split at h
    · cases h
    · obtain ⟨-, rfl⟩ := EStateM.Result.ok.inj h
      change k ≤ max (m.running.stack ++ Array.replicate (min (2 * n) m.options.maxStack - m.running.stack.size)
        Value.nil).size m.options.maxStack ↔ k ≤ max m.running.stack.size m.options.maxStack
      rw [Array.size_append, Array.size_replicate]
      omega

/-- A stack on which values were pushed: they lie above what lay there, and there is room for as much as before. -/
structure Machine.HasPushed (m : Machine) (vs : List Value) (stack : Array Value) : Prop where
  held : HoldsFrom stack m.running.top vs
  below : SameBelow m.running.top m.running.stack stack
  room (k : Nat) :
    (m.withStack stack).running.HasRoom m.options.maxStack k ↔ m.running.HasRoom m.options.maxStack k

theorem pushValue_apply (h : m.running.HasRoom m.options.maxStack (m.running.top + 1 + Limit.minStack))
    (v : Value) : ∃ stack, pushValue v m = .ok () ((m.withStack stack).withTop (m.running.top + 1)) ∧
      m.HasPushed [v] stack := by
  obtain ⟨stack, hensure, hsize, -, hgrown⟩ := ensureStack_apply h
  have hlt : m.running.top < stack.size := by omega
  have hwrite := writeSlot_apply (m := m.withStack stack) v hlt
  refine ⟨stack.setIfInBounds m.running.top v, ?_, fun k hk => ?_, fun k x hk hx => ?_, fun k => ?_⟩
  · rw [pushValue, Action.bind_ok (Action.view_apply ..), Action.bind_ok hensure, Action.bind_ok hwrite]
    rfl
  · obtain rfl : k = 0 := Nat.lt_one_iff.1 hk
    exact Array.getElem?_setIfInBounds_self_of_lt hlt
  · rw [Array.getElem?_setIfInBounds_ne (by omega), hgrown k (Array.getElem?_eq_some_iff.1 hx).1, hx]
  · rw [← hasRoom_of_ensureStack hensure, Strand.HasRoom, Strand.HasRoom, Machine.stack_withStack,
      Machine.stack_withStack, Array.size_setIfInBounds]

/-- Values are pushed one after the other. -/
theorem pushAll_apply (vs : List Value)
    (h : m.running.HasRoom m.options.maxStack (m.running.top + vs.length + Limit.minStack)) :
    ∃ stack, pushAll vs m = .ok () ((m.withStack stack).withTop (m.running.top + vs.length)) ∧
      m.HasPushed vs stack := by
  induction vs generalizing m with
  | nil => exact ⟨m.running.stack, rfl, nofun, fun _ _ _ h => h, fun _ => Iff.rfl⟩
  | cons v vs ih =>
    rw [List.length_cons] at h
    obtain ⟨first, hpush, hfirst⟩ := pushValue_apply (m := m) (le_trans (by omega) h) v
    obtain ⟨stack, hpushAll, hrest⟩ := ih (m := (m.withStack first).withTop (m.running.top + 1))
      ((hfirst.room _).2 (le_trans (by change m.running.top + 1 + _ + _ ≤ _; omega) h))
    refine ⟨stack, ?_, fun k hk => ?_, hfirst.below.trans (hrest.below.mono (Nat.le_succ _)), fun k =>
      (hrest.room k).trans (hfirst.room k)⟩
    · rw [pushAll, Action.bind_ok hpush, hpushAll, List.length_cons, Nat.add_comm vs.length 1, ← Nat.add_assoc]
      rfl
    · cases k with
      | zero => exact hrest.below _ v (Nat.lt_succ_self _) (hfirst.held 0 Nat.one_pos)
      | succ k =>
        have hheld := hrest.held k (Nat.lt_of_succ_lt_succ hk)
        rw [List.getElem?_cons_succ, ← hheld, ← Nat.add_assoc, Nat.add_right_comm]
        rfl

/-- More values than there is room for make the stack overflow. -/
theorem pushAll_overflows (vs : List Value)
    (hroom : m.running.HasRoom m.options.maxStack (m.running.top + Limit.minStack))
    (h : ¬ m.running.HasRoom m.options.maxStack (m.running.top + vs.length + Limit.minStack)) :
    Outcome.Overflows (pushAll vs m) := by
  induction vs generalizing m with
  | nil => exact absurd hroom h
  | cons v vs ih =>
    by_cases hone : m.running.HasRoom m.options.maxStack (m.running.top + 1 + Limit.minStack)
    · obtain ⟨stack, hpush, hpushed⟩ := pushValue_apply hone v
      rw [List.length_cons] at h
      rw [pushAll, Action.bind_ok hpush]
      refine ih ((hpushed.room _).2 hone) fun hall => h (((hpushed.room _).1 hall).trans' ?_)
      change _ ≤ m.running.top + 1 + _ + _
      omega
    · refine ⟨m, ?_⟩
      rw [pushAll, pushValue, Action.bind_apply, Action.bind_ok (Action.view_apply ..), Action.bind_apply,
        ensureStack_overflows hone]

/-! Arguments -/

/-- The frame on top has been given these arguments. -/
def Machine.HasArguments (m : Machine) (args : List Value) : Prop :=
  ∃ f, m.topFrame? = some f ∧ f.argCount = args.length ∧ HoldsFrom m.running.stack f.base args

namespace Machine.HasArguments

theorem arg_apply (h : m.HasArguments args) (k : Nat) : arg (k + 1) m = .ok (args.getD k .nil) m := by
  obtain ⟨f, hf, hcount, hargs⟩ := h
  rw [arg, Action.bind_ok (Action.view_apply ..), hf, List.getD_eq_getElem?_getD]
  dsimp only
  by_cases hk : k < args.length
  · have hget := hargs k hk
    rw [List.getElem?_eq_getElem hk] at hget ⊢
    rw [if_pos ⟨Nat.succ_pos k, hcount ▸ hk⟩]
    exact readSlot_eq_ok.2 ⟨hget, rfl⟩
  · rw [if_neg fun hle => hk (hcount ▸ hle.2), List.getElem?_eq_none (Nat.le_of_not_lt hk)]
    rfl

theorem requireTable_apply (h : m.HasArguments args) {k : Nat} (ht : args.getD k .nil = .table t)
    (function : String) : requireTable (k + 1) function m = .ok t m := by
  rw [requireTable, Action.bind_ok (h.arg_apply k), ht]
  rfl

theorem requireNumber_apply (h : m.HasArguments args) {k : Nat} {x : Float}
    (hx : (args.getD k .nil).toNumber? = some x) (function : String) :
    requireNumber (k + 1) function m = .ok x m := by
  rw [requireNumber, Action.bind_ok (h.arg_apply k), hx]
  rfl

end Machine.HasArguments

/-! What the caller of a host function gets -/

/-- A host function can be given a frame. -/
structure Machine.AdmitsHost (m : Machine) (slot argCount : Nat) : Prop where
  depth : m.depth < m.options.maxDepth
  room : m.running.HasRoom m.options.maxStack (slot + 1 + argCount + Limit.minStack)

/-- A host function was left with results: as many of them as the caller wants lie from the slot of the function
on, and the free slot is behind them if all are wanted. Nothing below them has changed, nor has the heap. -/
structure Machine.GotBack (m m' : Machine) (slot : Nat) (wanted : Option Nat) (vs : List Value) : Prop where
  frames : m'.running.frames = m.running.frames
  results : HoldsFrom m'.running.stack slot (adjusted wanted vs)
  top (hall : wanted = none) : m'.running.top = slot + vs.length
  below : SameBelow slot m.running.stack m'.running.stack
  heap : m'.heap = m.heap

/-- There is room for what a host function pushes, and for as many results as its caller wants. -/
structure Machine.Accommodates (m : Machine) (slot argCount : Nat) (wanted : Option Nat) (n : Nat) : Prop where
  pushed : m.running.HasRoom m.options.maxStack (slot + 1 + argCount + n + Limit.minStack)
  handed : m.running.HasRoom m.options.maxStack (slot + wanted.getD n + Limit.extraStack)

/-- A call of a host function ends with results if there is room for them, else the stack overflows. -/
structure Machine.GetsBack (m : Machine) (slot argCount : Nat) (wanted : Option Nat) (vs : List Value)
    (r : Outcome Unit) : Prop where
  results (h : m.Accommodates slot argCount wanted vs.length) : ∃ m', r = .ok () m' ∧ m.GotBack m' slot wanted vs
  overflows (h : ¬ m.Accommodates slot argCount wanted vs.length) : r.Overflows

/-- Where the caller of a host function is in its source. -/
def Machine.callerPosition (m : Machine) : String := m.topFrame?.elim "" m.framePosition

variable {embedding : Embedding} {run : Run} {f : Function}

theorem checkDepth_overflows (h : m.options.maxDepth ≤ m.depth) :
    checkDepth m = .error (.stackOverflow m.position false) m :=
  if_pos h

/-- A host function that cannot be given a frame is not called. -/
theorem callHost_overflows {argCount : Nat} (h : ¬ m.AdmitsHost slot argCount) :
    Outcome.Overflows (callHost embedding run f slot argCount wanted m) := by
  refine ⟨m, ?_⟩
  rw [callHost_eq]
  by_cases hdepth : m.depth < m.options.maxDepth
  · have hroom : ¬ m.running.HasRoom m.options.maxStack (slot + 1 + argCount + Limit.minStack) :=
      fun hroom => h ⟨hdepth, hroom⟩
    rw [Action.bind_ok (checkDepth_apply hdepth), Action.bind_apply, ensureStack_overflows hroom]
  · rw [Action.bind_apply, checkDepth_overflows (Nat.le_of_not_lt hdepth)]

theorem leaveHost_apply (h : slot + 1 + n ≤ m.running.top) :
    leaveHost slot n m = leaveFrame (m.running.top - n) n m := by
  rw [leaveHost, Action.bind_ok (Action.view_apply ..), Nat.min_eq_left (by omega)]

/-- Where a host function leaves its results there is room for, its caller has got them. -/
theorem Machine.gotBack_of_leaveFrame {first argCount : Nat}
    (hfs : m'.running.frames.toList = m.running.frames.toList ++ [hostFrame f slot argCount wanted])
    (hheap : m'.heap = m.heap) (hbelow : SameBelow slot m.running.stack m'.running.stack) (hle : slot ≤ first)
    (hvs : HoldsFrom m'.running.stack first vs)
    (hroom : m'.running.HasRoom m'.options.maxStack (slot + wanted.getD vs.length + Limit.extraStack)) :
    ∃ m₂, leaveFrame first vs.length m' = .ok () m₂ ∧ m.GotBack m₂ slot wanted vs := by
  obtain ⟨stack, hleave, hheld, hsame⟩ := leaveFrame_delivers hfs hle hvs hroom
  refine ⟨_, hleave, Array.toList_inj.1 ?_, hheld, fun hall => ?_, hbelow.trans hsame, hheap⟩
  · change m'.popped.running.frames.toList = _
    rw [m'.frames_popped, hfs, List.dropLast_concat]
  · subst hall
    rfl

/-- A host function is about to do its work: its frame is on top, with the arguments in it. -/
structure Machine.HostEntered (m m' : Machine) (f : Function) (slot : Nat) (args : List Value)
    (wanted : Option Nat) : Prop where
  frames : m'.running.frames = m.running.frames.push (hostFrame f slot args.length wanted)
  top : m'.running.top = slot + 1 + args.length
  arguments : HoldsFrom m'.running.stack (slot + 1) args
  below : SameBelow slot m.running.stack m'.running.stack
  heap : m'.heap = m.heap
  options : m'.options = m.options
  room (k : Nat) : m'.running.HasRoom m.options.maxStack k ↔ m.running.HasRoom m.options.maxStack k

theorem callHost_admitted (h : m.AdmitsHost slot args.length) (hargs : HoldsFrom m.running.stack (slot + 1) args)
    (embedding : Embedding) (run : Run) (f : Function) (wanted : Option Nat) :
    ∃ m', m.HostEntered m' f slot args wanted ∧
      callHost embedding run f slot args.length wanted m = (hostBody embedding f run >>= leaveHost slot) m' := by
  obtain ⟨stack, hensure, -, -, hgrown⟩ := ensureStack_apply h.room
  refine ⟨((m.withStack stack).withTop (slot + 1 + args.length)).pushed (hostFrame f slot args.length wanted),
    ?_, ?_⟩
  · exact {
      frames := rfl
      top := rfl
      arguments := hargs.congr fun k hk => hgrown _ (hargs.lt_size hk)
      below := .of_grown hgrown
      heap := rfl
      options := rfl
      room := fun k => hasRoom_of_ensureStack hensure k }
  · rw [callHost_eq, Action.bind_ok (checkDepth_apply h.depth), Action.bind_ok hensure,
      Action.bind_ok (setTop_apply ..), Action.bind_ok (pushFrame_apply ..)]

namespace Machine.HostEntered

variable {f : Function}

theorem toList_frames (h : m.HostEntered m' f slot args wanted) :
    m'.running.frames.toList = m.running.frames.toList ++ [hostFrame f slot args.length wanted] := by
  rw [h.frames, Array.toList_push]

theorem hasArguments (h : m.HostEntered m' f slot args wanted) : m'.HasArguments args :=
  ⟨_, topFrame?_of_append h.toList_frames, rfl, h.arguments⟩

/-- Errors of a host function are placed where it was called. -/
theorem position (h : m.HostEntered m' (.host g) slot args wanted) : m'.position = m.callerPosition := by
  have hframe : m'.framePosition = m.framePosition := by
    funext frame
    rw [framePosition, framePosition, h.heap]
  rw [Machine.position, callerPosition, topFrame?, h.frames, hframe]
  simp only [Array.back?_push, Array.size_push]
  have hlua : ¬ (hostFrame (.host g) slot args.length wanted).isLua = true := Bool.false_ne_true
  rw [if_neg hlua, Array.back?_eq_getElem?]
  by_cases hempty : m.running.frames.size = 0
  · rw [if_pos (by omega), Array.getElem?_eq_none (by omega)]
    rfl
  · have hlast : m.running.frames.size + 1 - 2 = m.running.frames.size - 1 := by omega
    rw [if_neg (by omega), Array.getElem?_push, if_neg (by omega), hlast]
    cases m.running.frames[m.running.frames.size - 1]? <;> rfl

/-- What a host function pushes is what its caller gets. -/
theorem pushValues_getsBack (h : m.HostEntered m' f slot args wanted) (hadmits : m.AdmitsHost slot args.length)
    (vs : List Value) : m.GetsBack slot args.length wanted vs ((pushValues vs >>= leaveHost slot) m') := by
  have hoptions : m'.options.maxStack = m.options.maxStack := congrArg _ h.options
  have hpushed : m'.running.HasRoom m'.options.maxStack (m'.running.top + vs.length + Limit.minStack) ↔
      m.running.HasRoom m.options.maxStack (slot + 1 + args.length + vs.length + Limit.minStack) := by
    rw [hoptions, h.top, h.room]
  by_cases hroom : m'.running.HasRoom m'.options.maxStack (m'.running.top + vs.length + Limit.minStack)
  · obtain ⟨stack, hpush, hstack⟩ := pushAll_apply vs hroom
    generalize hm₂ : (m'.withStack stack).withTop (m'.running.top + vs.length) = m₂ at hpush
    have hfs : m₂.running.frames.toList = m.running.frames.toList ++ [hostFrame f slot args.length wanted] :=
      hm₂ ▸ h.toList_frames
    have hleave : (pushValues vs >>= leaveHost slot) m' = leaveFrame m'.running.top vs.length m₂ := by
      have hlength : pushValues vs m' = .ok vs.length m₂ := by
        rw [pushValues, Action.bind_ok hpush]
        rfl
      have hle : slot + 1 + vs.length ≤ m'.running.top + vs.length := by
        rw [h.top]
        omega
      rw [Action.bind_ok hlength, ← hm₂, leaveHost_apply hle]
      exact congrArg (leaveFrame · _ _) (Nat.add_sub_cancel ..)
    have hhanded : m₂.running.HasRoom m₂.options.maxStack (slot + wanted.getD vs.length + Limit.extraStack) ↔
        m.running.HasRoom m.options.maxStack (slot + wanted.getD vs.length + Limit.extraStack) := by
      rw [← h.room, ← hoptions, ← hstack.room, ← hm₂]
      rfl
    rw [hleave]
    constructor
    · intro hall
      subst hm₂
      have hslot : slot ≤ m'.running.top := by
        rw [h.top]
        omega
      exact m.gotBack_of_leaveFrame hfs h.heap (h.below.trans (hstack.below.mono hslot)) hslot hstack.held
        (hhanded.2 hall.handed)
    · intro hnot
      exact leaveFrame_overflows hfs fun hleft => hnot ⟨hpushed.1 hroom, hhanded.1 hleft⟩
  · have hfirst : m'.running.HasRoom m'.options.maxStack (m'.running.top + Limit.minStack) := by
      rw [hoptions, h.top]
      exact (h.room _).2 hadmits.room
    refine ⟨fun hall => absurd (hpushed.2 hall.pushed) hroom, fun _ => ?_⟩
    obtain ⟨m₂, hpush⟩ := pushAll_overflows vs hfirst hroom
    exact ⟨m₂, by rw [pushValues, Action.bind_apply, Action.bind_apply, hpush]⟩

end Machine.HostEntered

end LuaMachine
