import LuaMachine.Proofs.Arguments
import LuaMachine.Proofs.Calling
import LuaMachine.Proofs.Transparency

/-!
Chains of `__call` handlers. A value that is called and is no function gives way to its handler and becomes
the first argument, until a function is there, a value without a handler, or too many have given way.
-/

namespace LuaMachine

/-- A value gives way to another one, and on the way values do in turn, the value itself first. -/
inductive Machine.Redirects (m : Machine) : Value → List Value → Value → Prop
  | refl (v : Value) : Redirects m v [] v
  | handler {v h w : Value} {vs : List Value} (hh : m.handler? v .call = some h)
    (rest : Redirects m h vs w) : Redirects m v (v :: vs) w

/-- What a mode makes of a closure: the unit to run it with, if any, or why there cannot be one. -/
def Machine.unitOf (m : Machine) (c : ClosureId) : Except CompileError (Option CompiledUnit) :=
  let compiled := (m.heap.closure c).unit.getD
    ((m.heap.cache m.cache).getOrCompile (m.heap.closure c).proto).1
  match m.options.mode, compiled with
  | .off, _ => .ok none
  | .auto, .error _ => .ok none
  | .strict, .error e => .error e
  | _, .ok unit => .ok (some unit)

/-- The heap once a closure was compiled as the mode asks for. -/
def Machine.heapWithUnit (m : Machine) (c : ClosureId) : Heap :=
  if m.options.mode = .off then m.heap
  else match (m.heap.closure c).unit with
    | some _ => m.heap
    | none =>
      let (r, cache) := (m.heap.cache m.cache).getOrCompile (m.heap.closure c).proto
      m.heap.compiled m.cache cache c r

/-- The machine with other values on its stack. -/
def Machine.relaid (m : Machine) (stack : Array Value) (top : Nat) : Machine :=
  (m.withStack stack).withTop top

/-- There is room on the stack for a number of arguments that have come in addition. -/
def Machine.HasRoomFor (m : Machine) (slot : Nat) (args vs : List Value) : Prop :=
  vs ≠ [] → m.running.HasRoom m.options.maxStack (slot + args.length + vs.length + 1 + Limit.extraStack)

/-- A called value has given way to another one: those that did are the first arguments, the last one
first. -/
structure Machine.Redirected (m : Machine) (slot : Nat) (w : Value) (vs args : List Value)
    (stack : Array Value) (top : Nat) : Prop where
  held : HoldsFrom stack slot (w :: (vs.reverse ++ args))
  top : vs ≠ [] ∨ m.running.top = slot + 1 + args.length → top = slot + 1 + args.length + vs.length
  below : ∀ j, j < slot → stack[j]? = m.running.stack[j]?
  size : m.running.stack.size ≤ stack.size ∧ stack.size ≤ max m.running.stack.size m.options.maxStack

variable {m m' : Machine} {slot n steps top : Nat} {v h w : Value} {vs args : List Value}
  {stack : Array Value} {c : ClosureId}

/-! Compiling what is called -/

theorem unitFor_eq_unitOf (c : ClosureId) (m : Machine) : unitFor c m =
    match m.unitOf c with
    | .ok unit => .ok unit (m.withHeap (m.heapWithUnit c))
    | .error e => .error (.compile e) (m.withHeap (m.heapWithUnit c)) := by
  rw [unitFor_eq, Machine.unitOf, Machine.heapWithUnit]
  split
  · next hoff =>
    rw [hoff]
    rfl
  · next hmode =>
    obtain ⟨r, hr⟩ : ∃ r, (m.heap.closure c).unit.getD
      ((m.heap.cache m.cache).getOrCompile (m.heap.closure c).proto).1 = r := ⟨_, rfl⟩
    have hcompile : compileClosure c m = .ok r (m.withHeap (m.heapWithUnit c)) := by
      rw [Machine.heapWithUnit, if_neg hmode]
      cases hunit : (m.heap.closure c).unit with
      | some r' =>
        rw [hunit, Option.getD_some] at hr
        subst hr
        simp only [compileClosure, Action.bind_apply, Action.view_apply, hunit, Action.pure_apply]
        rfl
      | none =>
        rw [hunit, Option.getD_none] at hr
        subst hr
        simp only [compileClosure, Action.bind_apply, Action.view_apply, hunit, Action.onHeap_apply]
        rfl
    rw [Action.bind_ok hcompile, Machine.heapWithUnit, if_neg hmode, hr]
    cases hm : m.options.mode with
    | off => exact absurd hm hmode
    | auto => cases r <;> rfl
    | strict => cases r <;> rfl

/-! Giving way to a handler -/

/-- Values that are shifted lie one slot further up. -/
theorem shiftSlots_apply (slot n : Nat) (hn : slot + n < m.running.stack.size) :
    ∃ stack, shiftSlots (slot + n) n m = .ok () (m.withStack stack) ∧
      stack.size = m.running.stack.size ∧ (∀ j, j < slot → stack[j]? = m.running.stack[j]?) ∧
      (∀ k, k < n → stack[slot + 1 + k]? = m.running.stack[slot + k]?) ∧
      ∀ j, slot + n < j → stack[j]? = m.running.stack[j]? := by
  induction n generalizing m with
  | zero => exact ⟨m.running.stack, rfl, rfl, fun _ _ => rfl, nofun, fun _ _ => rfl⟩
  | succ n ih =>
    have hget := Array.getElem?_eq_getElem (show slot + n < m.running.stack.size by omega)
    generalize m.running.stack[slot + n] = v at hget
    obtain ⟨moved, hmoved⟩ : ∃ moved, moved =
      (m.running.stack.setIfInBounds (slot + n) .nil).setIfInBounds (slot + (n + 1)) v := ⟨_, rfl⟩
    have hwrite : writeSlot (slot + (n + 1)) v
        (m.withStack (m.running.stack.setIfInBounds (slot + n) .nil)) = .ok () (m.withStack moved) := by
      rw [hmoved]
      exact writeSlot_apply v (by rwa [Machine.stack_withStack, Array.size_setIfInBounds])
    have hsize : moved.size = m.running.stack.size := by
      rw [hmoved, Array.size_setIfInBounds, Array.size_setIfInBounds]
    have hsame (j : Nat) (h : j ≠ slot + n) (h' : j ≠ slot + (n + 1)) :
        moved[j]? = m.running.stack[j]? := by
      rw [hmoved, Array.getElem?_setIfInBounds_ne h'.symm, Array.getElem?_setIfInBounds_ne h.symm]
    obtain ⟨stack, hshift, hsize', hlow, hmid, hhigh⟩ := ih (m := m.withStack moved)
      (by rw [Machine.stack_withStack]; omega)
    rw [Machine.stack_withStack] at hsize' hlow hmid hhigh
    refine ⟨stack, ?_, hsize'.trans hsize, fun j hj => ?_, fun k hk => ?_, fun j hj => ?_⟩
    · rw [shiftSlots, show slot + (n + 1) - 1 = slot + n by omega, Action.bind_ok (takeSlot_apply hget),
        Action.bind_ok hwrite, hshift]
      rfl
    · rw [hlow j hj, hsame j (by omega) (by omega)]
    · rcases Nat.lt_succ_iff_lt_or_eq.1 hk with hlt | rfl
      · rw [hmid k hlt, hsame _ (by omega) (by omega)]
      · rw [hhigh _ (by omega), hmoved, Nat.add_assoc, Nat.add_comm 1,
          Array.getElem?_setIfInBounds_self_of_lt (by rw [Array.size_setIfInBounds]; omega), hget]
    · rw [hhigh j (by omega), hsame j (by omega) (by omega)]

theorem HoldsFrom.head (h : HoldsFrom stack slot (v :: args)) : stack[slot]? = some v :=
  h 0 (Nat.succ_pos _)

theorem HoldsFrom.tail (h : HoldsFrom stack slot (v :: args)) : HoldsFrom stack (slot + 1) args :=
  h.drop 1

/-- A stack does not grow beyond its limit. -/
theorem ensureStack_apply_le {n : Nat} (hroom : m.running.HasRoom m.options.maxStack n) :
    ∃ stack, ensureStack n m = .ok () (m.withStack stack) ∧ n ≤ stack.size ∧
      m.running.stack.size ≤ stack.size ∧ stack.size ≤ max m.running.stack.size m.options.maxStack ∧
      ∀ j, j < m.running.stack.size → stack[j]? = m.running.stack[j]? := by
  obtain ⟨stack, hensure, hn, hle, hlow⟩ := ensureStack_apply hroom
  refine ⟨stack, hensure, hn, hle, ?_, hlow⟩
  unfold ensureStack at hensure
  split at hensure
  · obtain ⟨-, heq⟩ := EStateM.Result.ok.inj hensure
    have hstack := congrArg (fun m : Machine => m.running.stack) heq
    rw [Machine.stack_withStack] at hstack
    exact hstack ▸ le_max_left ..
  · split at hensure
    · cases hensure
    · obtain ⟨-, heq⟩ := EStateM.Result.ok.inj hensure
      have hstack := congrArg (fun m : Machine => m.running.stack.size) heq
      simp only [Machine.stack_withStack] at hstack
      rw [← hstack]
      change (m.running.stack ++ Array.replicate (min (2 * n) m.options.maxStack - m.running.stack.size)
        Value.nil).size ≤ _
      rw [Array.size_append, Array.size_replicate]
      omega

/-- The handler takes the place of the called value, which becomes the first argument. -/
theorem resolveHandler_apply (steps : Nat) (hh : m.handler? v .call = some h)
    (hheld : HoldsFrom m.running.stack slot (v :: args))
    (hroom : m.running.HasRoom m.options.maxStack (slot + args.length + 2 + Limit.extraStack)) :
    ∃ stack, resolveHandler slot steps args.length v m =
        resolveCall slot steps (args.length + 1) (m.relaid stack (slot + args.length + 2)) ∧
      HoldsFrom stack slot (h :: v :: args) ∧ (∀ j, j < slot → stack[j]? = m.running.stack[j]?) ∧
      m.running.stack.size ≤ stack.size ∧ stack.size ≤ max m.running.stack.size m.options.maxStack := by
  obtain ⟨grown, hensure, hn, hsize, hlimit, hgrown⟩ := ensureStack_apply_le hroom
  have hheld' : HoldsFrom grown slot (v :: args) := hheld.congr fun k hk => hgrown _ (hheld.lt_size hk)
  obtain ⟨shifted, hshift, hsize', hlow, hmid, -⟩ := shiftSlots_apply (m := m.withStack grown)
    slot (args.length + 1) (by rw [Machine.stack_withStack]; omega)
  rw [Machine.stack_withStack] at hsize' hlow hmid
  have hslot : slot < shifted.size := by omega
  have hwrite := writeSlot_apply (m := m.withStack shifted) h hslot
  rw [Machine.stack_withStack, Machine.withStack_withStack] at hwrite
  refine ⟨shifted.setIfInBounds slot h, ?_, fun k hk => ?_, fun j hj => ?_, ?_, ?_⟩
  · rw [resolveHandler, Action.bind_ok (Action.view_apply _ m)]
    simp only [hh]
    rw [Action.bind_ok hensure, Nat.add_assoc slot, Action.bind_ok hshift, Machine.withStack_withStack,
      Action.bind_ok hwrite, Action.bind_ok (setTop_apply ..)]
    rfl
  · cases k with
    | zero => exact Array.getElem?_setIfInBounds_self_of_lt hslot
    | succ k =>
      have hk' : k < (v :: args).length := Nat.lt_of_succ_lt_succ hk
      rw [Array.getElem?_setIfInBounds_ne (by omega), List.getElem?_cons_succ, ← hheld' k hk',
        ← hmid k hk', Nat.add_assoc, Nat.add_comm 1]
  · rw [Array.getElem?_setIfInBounds_ne hj.ne', hlow j hj]
    by_cases hlt : j < m.running.stack.size
    · exact hgrown j hlt
    · exact absurd ((hheld.lt_size (Nat.succ_pos _)).trans' (by omega)) hlt
  · rwa [Array.size_setIfInBounds, hsize']
  · rwa [Array.size_setIfInBounds, hsize']

theorem resolveHandler_overflows (hh : m.handler? v .call = some h) {argCount : Nat}
    (hroom : ¬ m.running.HasRoom m.options.maxStack (slot + argCount + 2 + Limit.extraStack)) :
    resolveHandler slot steps argCount v m = .error (.stackOverflow m.position false) m := by
  rw [resolveHandler, Action.bind_ok (Action.view_apply _ m)]
  simp only [hh]
  rw [Action.bind_apply, ensureStack_overflows hroom]

/-! Following a chain -/

section

variable {f : Function}

theorem resolveCall_host (hf : ∀ c, f ≠ .lua c) (hslot : m.running.stack[slot]? = some (.function f))
    (argCount : Nat) : resolveCall slot (steps + 1) argCount m = .ok (.host f, argCount) m := by
  rw [resolveCall, Action.bind_ok (readSlot_eq_ok.2 ⟨hslot, rfl⟩)]
  cases f with
  | lua c => exact absurd rfl (hf c)
  | _ => rfl

theorem resolveCall_lua (hc : c.index < m.heap.closures.size)
    (hslot : m.running.stack[slot]? = some (.function (.lua c))) (argCount : Nat) :
    resolveCall slot (steps + 1) argCount m =
      match m.unitOf c with
      | .ok unit => .ok (.lua c unit, argCount) (m.withHeap (m.heapWithUnit c))
      | .error e => .error (.compile e) (m.withHeap (m.heapWithUnit c)) := by
  rw [resolveCall, Action.bind_ok (readSlot_eq_ok.2 ⟨hslot, rfl⟩)]
  dsimp only
  rw [Action.bind_ok (show checkClosure c m = .ok () m from if_pos hc), Action.bind_apply,
    unitFor_eq_unitOf]
  cases m.unitOf c <;> rfl

theorem resolveCall_eq_handler (hv : ∀ f, v ≠ .function f) (hslot : m.running.stack[slot]? = some v)
    (argCount : Nat) :
    resolveCall slot (steps + 1) argCount m = resolveHandler slot steps argCount v m := by
  rw [resolveCall, Action.bind_ok (readSlot_eq_ok.2 ⟨hslot, rfl⟩)]
  cases v with
  | function f => exact absurd rfl (hv f)
  | _ => rfl

end

/-- The call of what has no handler is resolved with the stack as it is. -/
theorem stack_resolveCall (hnone : m.handler? w .call = none) (hslot : m.running.stack[slot]? = some w)
    (argCount : Nat) :
    (Outcome.state (resolveCall slot (steps + 1) argCount m)).running.stack = m.running.stack := by
  have hresolving := resolving slot steps argCount m
  generalize hr : resolveCall slot (steps + 1) argCount m = r at hresolving ⊢
  cases hresolving with
  | missing | host _ _ | fails _ _ => rfl
  | @lua c hread hc =>
    rw [← hr, resolveCall_lua hc hread]
    cases m.unitOf c <;> rfl
  | handler hread _ hh =>
    obtain rfl := Option.some.inj (hslot.symm.trans hread)
    cases hnone.symm.trans hh

theorem ne_function_of_handler? (hh : m.handler? v .call = some h) (f : Function) : v ≠ .function f := by
  rintro rfl
  cases hh

namespace Machine

theorem Redirected.refl (hheld : HoldsFrom m.running.stack slot (v :: args)) :
    m.Redirected slot v [] args m.running.stack m.running.top where
  held := hheld
  top h := h.resolve_left fun h => h rfl
  below _ _ := rfl
  size := ⟨le_rfl, le_max_left ..⟩

/-- What one value leaves for the next one is what the rest of the chain starts with. -/
theorem Redirected.handler {stack' : Array Value} {top' : Nat}
    (hstack : ∀ j, j < slot → stack[j]? = m.running.stack[j]?)
    (hsize : m.running.stack.size ≤ stack.size ∧ stack.size ≤ max m.running.stack.size m.options.maxStack)
    (hrest : (m.relaid stack (slot + args.length + 2)).Redirected slot w vs (v :: args) stack' top') :
    m.Redirected slot w (v :: vs) args stack' top' where
  held := by
    rw [List.reverse_cons, List.append_assoc]
    exact hrest.held
  top _ := by
    have htop := hrest.top (.inr (show slot + args.length + 2 = slot + 1 + (args.length + 1) by omega))
    rw [List.length_cons] at htop ⊢
    omega
  below j hj := (hrest.below j hj).trans (hstack j hj)
  size := by
    have hrest : stack.size ≤ stack'.size ∧ stack'.size ≤ max stack.size m.options.maxStack := hrest.size
    omega

theorem HasRoomFor.head (h : m.HasRoomFor slot args (v :: vs)) :
    m.running.HasRoom m.options.maxStack (slot + args.length + 2 + Limit.extraStack) := by
  have h := h (List.cons_ne_nil v vs)
  rw [List.length_cons] at h
  unfold Strand.HasRoom at h ⊢
  omega

theorem HasRoomFor.tail (h : m.HasRoomFor slot args (v :: vs)) (hsize : m.running.stack.size ≤ stack.size) :
    (m.relaid stack top).HasRoomFor slot (v :: args) vs := by
  intro _
  have h := h (List.cons_ne_nil v vs)
  change _ ≤ max stack.size m.options.maxStack
  unfold Strand.HasRoom at h
  rw [List.length_cons] at h ⊢
  omega

theorem HasRoomFor.cons (hsize : stack.size ≤ max m.running.stack.size m.options.maxStack)
    (hfirst : m.running.HasRoom m.options.maxStack (slot + args.length + 2 + Limit.extraStack))
    (hrest : (m.relaid stack top).HasRoomFor slot (v :: args) vs) : m.HasRoomFor slot args (v :: vs) := by
  intro _
  unfold Strand.HasRoom at hfirst ⊢
  rw [List.length_cons]
  rcases List.eq_nil_or_concat vs with rfl | ⟨us, u, hvs⟩
  · rw [List.length_nil]
    omega
  · have hrest : slot + (v :: args).length + vs.length + 1 + Limit.extraStack ≤
        max stack.size m.options.maxStack := hrest (by simp [hvs])
    rw [List.length_cons] at hrest
    omega

theorem Redirects.congr (h : m.Redirects v vs w) (hm : ∀ v, m'.handler? v .call = m.handler? v .call) :
    m'.Redirects v vs w := by
  induction h with
  | refl v => exact .refl v
  | handler hh _ ih => exact .handler ((hm _).trans hh) ih

/-- A chain is followed to where it leads, one step for each value on the way. -/
theorem Redirects.follow (hchain : m.Redirects v vs w) (steps top : Nat) {args : List Value}
    {stack : Array Value} (hroom : (m.relaid stack top).HasRoomFor slot args vs)
    (hheld : HoldsFrom stack slot (v :: args)) :
    ∃ stack' top', (m.relaid stack top).Redirected slot w vs args stack' top' ∧
      resolveCall slot (vs.length + steps) args.length (m.relaid stack top) =
        resolveCall slot steps (args.length + vs.length) (m.relaid stack' top') := by
  induction hchain generalizing args stack top with
  | refl v =>
    refine ⟨stack, top, .refl hheld, ?_⟩
    rw [List.length_nil, Nat.zero_add, Nat.add_zero]
  | @handler v h w vs hh rest ih =>
    obtain ⟨shifted, hresolve, hheld', hlow, hsize⟩ := resolveHandler_apply (m := m.relaid stack top)
      (vs.length + steps) hh hheld hroom.head
    obtain ⟨stack', top', hredirected, hfollow⟩ := ih (slot + args.length + 2)
      (hroom.tail hsize.1) hheld'
    refine ⟨stack', top', .handler hlow hsize hredirected, ?_⟩
    rw [List.length_cons, Nat.add_right_comm, resolveCall_eq_handler (ne_function_of_handler? hh) hheld.head,
      hresolve]
    refine hfollow.trans ?_
    rw [List.length_cons, Nat.add_right_comm, Nat.add_assoc args.length]

/-- A chain for which there is no room overflows the stack somewhere on the way. -/
theorem Redirects.overflows (hchain : m.Redirects v vs w) (top : Nat) {args : List Value}
    {stack : Array Value} (hroom : ¬ (m.relaid stack top).HasRoomFor slot args vs)
    (hheld : HoldsFrom stack slot (v :: args)) {steps : Nat} (hsteps : vs.length ≤ steps) :
    ∃ stack' top', (∀ j, j < slot → stack'[j]? = stack[j]?) ∧
      resolveCall slot steps args.length (m.relaid stack top) =
        .error (.stackOverflow m.position false) (m.relaid stack' top') := by
  induction hchain generalizing args stack top steps with
  | refl v => exact absurd (fun h => absurd rfl h) hroom
  | @handler v h w vs hh rest ih =>
    obtain ⟨steps, rfl⟩ := Nat.exists_eq_add_of_le' (hsteps.trans' (Nat.succ_le_succ (Nat.zero_le _)))
    rw [resolveCall_eq_handler (ne_function_of_handler? hh) hheld.head]
    by_cases hfirst : (m.relaid stack top).running.HasRoom m.options.maxStack
        (slot + args.length + 2 + Limit.extraStack)
    · obtain ⟨shifted, hresolve, hheld', hlow, hsize⟩ := resolveHandler_apply (m := m.relaid stack top)
        steps hh hheld hfirst
      have hrest : ¬ (m.relaid shifted (slot + args.length + 2)).HasRoomFor slot (v :: args) vs :=
        fun hrest => hroom (.cons hsize.2 hfirst hrest)
      obtain ⟨stack', top', hlow', hover⟩ := ih _ hrest hheld' (Nat.le_of_succ_le_succ hsteps)
      exact ⟨stack', top', fun j hj => (hlow' j hj).trans (hlow j hj), hresolve.trans hover⟩
    · exact ⟨stack, top, fun _ _ => rfl, resolveHandler_overflows (m := m.relaid stack top) hh hfirst⟩

end Machine

/-- A function has no handlers: the chain of a value ends with it. -/
theorem Machine.handler?_function (m : Machine) (f : Function) (e : Event) :
    m.handler? (.function f) e = none := rfl

/-- A chain of handlers ends, or is as long as any number. -/
theorem Machine.exists_redirects (m : Machine) (n : Nat) (v : Value) : ∃ vs w, m.Redirects v vs w ∧
    (m.handler? w .call = none ∧ vs.length < n ∨ vs.length = n) := by
  induction n generalizing v with
  | zero => exact ⟨[], v, .refl v, .inr rfl⟩
  | succ n ih =>
    cases hh : m.handler? v .call with
    | none => exact ⟨[], v, .refl v, .inl ⟨hh, Nat.succ_pos n⟩⟩
    | some h =>
      obtain ⟨vs, w, hchain, hends⟩ := ih h
      refine ⟨v :: vs, w, .handler hh hchain, ?_⟩
      rw [List.length_cons]
      exact hends.imp (And.imp_right Nat.succ_lt_succ) (congrArg Nat.succ)

theorem Machine.mode_of_unitOf {e : CompileError} (h : m.unitOf c = .error e) :
    m.options.mode = .strict := by
  unfold unitOf at h
  generalize (m.heap.closure c).unit.getD _ = r at h
  cases hmode : m.options.mode with
  | strict => rfl
  | off => rw [hmode] at h; cases h
  | auto => rw [hmode] at h; cases r <;> cases h

/-- How a call of a value with arguments is resolved, by the chain of handlers it starts. -/
structure Machine.ResolvesCall (m : Machine) (slot : Nat) (v : Value) (args : List Value) : Prop where
  /-- The chain ends in time, as it does with any function, or is too long. -/
  ends : ∃ vs w, m.Redirects v vs w ∧
    (m.handler? w .call = none ∧ vs.length < Limit.metaSteps ∨ vs.length = Limit.metaSteps)
  host : ∀ vs f, m.Redirects v vs (.function f) → (∀ c, f ≠ .lua c) → vs.length < Limit.metaSteps →
    m.HasRoomFor slot args vs → ∃ stack top, m.Redirected slot (.function f) vs args stack top ∧
      resolveCall slot Limit.metaSteps args.length m =
        .ok (.host f, args.length + vs.length) (m.relaid stack top)
  /-- The closure is compiled if it has to be, which changes nothing in the heap but units and caches. -/
  lua : ∀ vs c, m.Redirects v vs (.function (.lua c)) → c.index < m.heap.closures.size →
    vs.length < Limit.metaSteps → m.HasRoomFor slot args vs →
    ∃ stack top, m.Redirected slot (.function (.lua c)) vs args stack top ∧
      match m.unitOf c with
      | .ok unit => resolveCall slot Limit.metaSteps args.length m =
          .ok (.lua c unit, args.length + vs.length) ((m.relaid stack top).withHeap (m.heapWithUnit c))
      | .error e => m.options.mode = .strict ∧ resolveCall slot Limit.metaSteps args.length m =
          .error (.compile e) ((m.relaid stack top).withHeap (m.heapWithUnit c))
  uncallable : ∀ vs w, m.Redirects v vs w → (∀ f, w ≠ .function f) → m.handler? w .call = none →
    vs.length < Limit.metaSteps → m.HasRoomFor slot args vs →
    ∃ stack top, m.Redirected slot w vs args stack top ∧
      resolveCall slot Limit.metaSteps args.length m = .error (.runtime
        (.str (m.position ++ ("attempt to call a " ++ w.type.name ++ " value"))) none) (m.relaid stack top)
  endless : ∀ vs w, m.Redirects v vs w → vs.length = Limit.metaSteps → m.HasRoomFor slot args vs →
    ∃ stack top, m.Redirected slot w vs args stack top ∧
      resolveCall slot Limit.metaSteps args.length m = .error (.runtime
        (.str (m.position ++ "'__call' chain too long")) none) (m.relaid stack top)
  overflow : ∀ vs w, m.Redirects v vs w → vs.length ≤ Limit.metaSteps → ¬ m.HasRoomFor slot args vs →
    ∃ stack top, (∀ j, j < slot → stack[j]? = m.running.stack[j]?) ∧
      resolveCall slot Limit.metaSteps args.length m =
        .error (.stackOverflow m.position false) (m.relaid stack top)
  /-- However it is resolved, what lies below the called value stays. -/
  below : ∀ j, j < slot → (Outcome.state
    (resolveCall slot Limit.metaSteps args.length m)).running.stack[j]? = m.running.stack[j]?

section

variable (hheld : HoldsFrom m.running.stack slot (v :: args))

include hheld

/-- What a chain leads to in time is looked at with a step to spare. -/
theorem Machine.Redirects.resolve (hchain : m.Redirects v vs w) (hlt : vs.length < Limit.metaSteps)
    (hroom : m.HasRoomFor slot args vs) :
    ∃ stack top steps, m.Redirected slot w vs args stack top ∧
      resolveCall slot Limit.metaSteps args.length m =
        resolveCall slot (steps + 1) (args.length + vs.length) (m.relaid stack top) := by
  obtain ⟨steps, hsteps⟩ := Nat.exists_eq_add_of_lt hlt
  obtain ⟨stack, top, hredirected, hfollow⟩ := hchain.follow (steps + 1) m.running.top
    hroom hheld
  exact ⟨stack, top, steps, hredirected, hsteps ▸ hfollow⟩

theorem Machine.Redirects.resolve_lua (hchain : m.Redirects v vs (.function (.lua c)))
    (hc : c.index < m.heap.closures.size) (hlt : vs.length < Limit.metaSteps)
    (hroom : m.HasRoomFor slot args vs) :
    ∃ stack top, m.Redirected slot (.function (.lua c)) vs args stack top ∧
      resolveCall slot Limit.metaSteps args.length m =
        match m.unitOf c with
        | .ok unit => .ok (.lua c unit, args.length + vs.length)
            ((m.relaid stack top).withHeap (m.heapWithUnit c))
        | .error e => .error (.compile e) ((m.relaid stack top).withHeap (m.heapWithUnit c)) := by
  obtain ⟨stack, top, steps, hredirected, hresolve⟩ := hchain.resolve hheld hlt hroom
  refine ⟨stack, top, hredirected, hresolve.trans ?_⟩
  exact resolveCall_lua (m := m.relaid stack top) hc hredirected.held.head _

theorem Machine.Redirects.resolve_uncallable (hchain : m.Redirects v vs w) (hw : ∀ f, w ≠ .function f)
    (hnone : m.handler? w .call = none) (hlt : vs.length < Limit.metaSteps)
    (hroom : m.HasRoomFor slot args vs) :
    ∃ stack top, m.Redirected slot w vs args stack top ∧
      resolveCall slot Limit.metaSteps args.length m = .error (.runtime
        (.str (m.position ++ ("attempt to call a " ++ w.type.name ++ " value"))) none)
        (m.relaid stack top) := by
  obtain ⟨stack, top, steps, hredirected, hresolve⟩ := hchain.resolve hheld hlt hroom
  refine ⟨stack, top, hredirected, hresolve.trans ?_⟩
  rw [resolveCall_eq_handler hw hredirected.held.head, resolveHandler,
    Action.bind_ok (Action.view_apply _ _)]
  simp only [show (m.relaid stack top).handler? w .call = none from hnone]
  rfl

theorem Machine.Redirects.resolve_endless (hchain : m.Redirects v vs w)
    (hlength : vs.length = Limit.metaSteps) (hroom : m.HasRoomFor slot args vs) :
    ∃ stack top, m.Redirected slot w vs args stack top ∧
      resolveCall slot Limit.metaSteps args.length m = .error (.runtime
        (.str (m.position ++ "'__call' chain too long")) none) (m.relaid stack top) := by
  obtain ⟨stack, top, hredirected, hfollow⟩ := hchain.follow 0 m.running.top hroom hheld
  rw [Nat.add_zero, hlength] at hfollow
  exact ⟨stack, top, hredirected, hfollow⟩

theorem resolveCall_below (j : Nat) (hj : j < slot) : (Outcome.state
    (resolveCall slot Limit.metaSteps args.length m)).running.stack[j]? = m.running.stack[j]? := by
  obtain ⟨vs, w, hchain, hends⟩ := m.exists_redirects Limit.metaSteps v
  by_cases hroom : m.HasRoomFor slot args vs
  · rcases hends with ⟨hnone, hlt⟩ | hlength
    · obtain ⟨stack, top, steps, hredirected, hresolve⟩ := hchain.resolve hheld hlt hroom
      rw [hresolve, stack_resolveCall (m := m.relaid stack top) hnone hredirected.held.head]
      exact hredirected.below j hj
    · obtain ⟨stack, top, hredirected, hresolve⟩ := hchain.resolve_endless hheld hlength hroom
      rw [hresolve]
      exact hredirected.below j hj
  · obtain ⟨stack, top, hlow, hresolve⟩ := hchain.overflows m.running.top hroom hheld
      (hends.elim (fun h => h.2.le) Eq.le)
    rw [show resolveCall slot Limit.metaSteps args.length m = _ from hresolve]
    exact hlow j hj

/-- A call is resolved by the chain of handlers that the called value starts. -/
theorem resolveCall_follows_chain : m.ResolvesCall slot v args where
  ends := m.exists_redirects Limit.metaSteps v
  host vs f hchain hf hlt hroom := by
    obtain ⟨stack, top, steps, hredirected, hresolve⟩ := hchain.resolve hheld hlt hroom
    exact ⟨stack, top, hredirected, hresolve.trans (resolveCall_host hf hredirected.held.head _)⟩
  lua vs c hchain hc hlt hroom := by
    obtain ⟨stack, top, hredirected, hresolve⟩ := hchain.resolve_lua hheld hc hlt hroom
    refine ⟨stack, top, hredirected, ?_⟩
    cases hunit : m.unitOf c with
    | ok unit => rwa [hunit] at hresolve
    | error e =>
      rw [hunit] at hresolve
      exact ⟨Machine.mode_of_unitOf hunit, hresolve⟩
  uncallable vs w hchain := hchain.resolve_uncallable hheld
  endless vs w hchain := hchain.resolve_endless hheld
  overflow vs w hchain hle hroom := hchain.overflows m.running.top hroom hheld hle
  below := resolveCall_below hheld

end

/-- A value that is its own handler gives way to itself over and over. -/
theorem Machine.Redirects.replicate (hh : m.handler? v .call = some v) (n : Nat) :
    m.Redirects v (List.replicate n v) v := by
  induction n with
  | zero => exact .refl v
  | succ n ih => exact .handler hh ih

/-- A machine with a table that is its own metatable and the handler of its own calls. -/
def Machine.mirror : Machine :=
  let t := Table.empty.setString "__call" (.table ⟨0⟩)
  (({ Machine.bare with
    heap := { tables := #[{ t with metatable := some ⟨0⟩ }] } } : Machine).withStack
      #[.nil, .table ⟨0⟩, .bool true]).withTop 3

theorem Machine.mirror_handler? : Machine.mirror.handler? (.table ⟨0⟩) .call = some (.table ⟨0⟩) := by
  simp [mirror, handler?, metatable?, Heap.handler?, withTop, withStack, modifyRunning, Heap.table,
    Table.setString, Table.setKey, Table.setInNodes, Table.empty, Table.insertNode, Table.pushNode,
    Table.getString, Table.getKey, Table.getNode, Table.nodeValue, Value.isNil, Event.name]

theorem resolveCall_follows_chain_mirror :
    HoldsFrom Machine.mirror.running.stack 1 [.table ⟨0⟩, .bool true] ∧
      ∃ m', resolveCall 1 Limit.metaSteps 1 Machine.mirror =
        .error (.runtime (.str "'__call' chain too long") none) m' := by
  have hheld : HoldsFrom Machine.mirror.running.stack 1 [.table ⟨0⟩, .bool true] := by
    intro k hk
    match k, hk with
    | 0, _ => rfl
    | 1, _ => rfl
  obtain ⟨stack, top, -, hresolve⟩ := (resolveCall_follows_chain hheld).endless _ _
    (.replicate Machine.mirror_handler? Limit.metaSteps) (List.length_replicate ..) fun _ => by
      rw [List.length_replicate]
      exact le_max_of_le_right (show 1 + 1 + 100 + 1 + 5 ≤ 1000000 by decide)
  exact ⟨hheld, _, hresolve⟩

end LuaMachine
