import LuaMachine.Proofs.Delivery

/-!
The arguments of a call. A function that is entered finds them in its first registers, and `nil` where there
are fewer; a function that takes surplus ones finds these below its registers.
-/

namespace LuaMachine

namespace Prototype

variable (p : Prototype)

/-- The registers that hold arguments from the start: the parameters, and maybe the table of surplus ones. -/
def arguments (args : List Value) (t : TableId) : List Value :=
  adjusted (some p.paramCount.toNat) args ++ if p.isVararg ∧ p.needsArg then [.table t] else []

/-- All registers as they are from the start. -/
def registers (args : List Value) (t : TableId) : List Value :=
  p.arguments args t ++ List.replicate (p.maxStack.toNat - (p.arguments args t).length) .nil

/-- Where the registers start: where the arguments do, or behind the surplus ones. -/
def baseFor (start argCount : Nat) : Nat :=
  start + if p.isVararg then max argCount p.paramCount.toNat else 0

/-- The slots there have to be for a call. -/
def extent (slot argCount : Nat) : Nat :=
  slot + 1 + max argCount p.paramCount.toNat + p.paramCount.toNat + p.maxStack.toNat + 1 + Limit.extraStack

end Prototype

/-- The heap with a table of surplus arguments for a function that wants one. -/
def Heap.withSurplus (h : Heap) (p : Prototype) (args : List Value) : Heap :=
  if p.isVararg ∧ p.needsArg then (h.newTable (surplusTable (args.drop p.paramCount.toNat))).2 else h

/-- A frame that has not started has received arguments, the surplus ones in a table as well if it wants so. -/
structure Frame.Receives (f : Frame) (p : Prototype) (args : List Value) (t : TableId)
    (stack : Array Value) : Prop where
  pc : f.pc = 0
  argCount : f.argCount = args.length
  base : f.base = p.baseFor (f.slot + 1) args.length
  top : f.top = f.base + (p.registers args t).length
  registers : HoldsFrom stack f.base (p.registers args t)
  surplus : f.surplus = if p.isVararg then args.length - p.paramCount.toNat else 0
  kept : HoldsFrom stack (f.base - f.surplus) ((args.drop p.paramCount.toNat).take f.surplus)

def Machine.withHeap (m : Machine) (h : Heap) : Machine := { m with heap := h }

variable {m m' : Machine} {stack : Array Value} {vs ws args : List Value} {p : Prototype}
  {i n start : Nat} {u : Unit}

namespace HoldsFrom

theorem take (h : HoldsFrom stack i vs) (n : Nat) : HoldsFrom stack i (vs.take n) := by
  intro k hk
  rw [List.length_take, lt_min_iff] at hk
  rw [h k hk.2, List.getElem?_take_of_lt hk.1]

theorem drop (h : HoldsFrom stack i vs) (n : Nat) : HoldsFrom stack (i + n) (vs.drop n) := by
  intro k hk
  rw [List.length_drop] at hk
  rw [List.getElem?_drop, ← h (n + k) (by omega), Nat.add_assoc]

theorem append (h : HoldsFrom stack i vs) (h' : HoldsFrom stack (i + vs.length) ws) :
    HoldsFrom stack i (vs ++ ws) := by
  intro k hk
  rw [List.length_append] at hk
  rcases Nat.lt_or_ge k vs.length with hlt | hge
  · rw [h k hlt, List.getElem?_append_left hlt]
  · rw [List.getElem?_append_right hge, ← h' (k - vs.length) (by omega)]
    congr 1
    omega

end HoldsFrom

/-- Values that are moved up, beyond where they were, arrive as they were. -/
theorem moveSlots_beyond {target source : Nat} (hle : source + n ≤ target)
    (hn : target + n ≤ m.running.stack.size) :
    ∃ stack, moveSlots target source n m = .ok () (m.withStack stack) ∧
      stack.size = m.running.stack.size ∧
      (∀ k, k < n → stack[target + k]? = m.running.stack[source + k]?) ∧
      (∀ j, j < source → stack[j]? = m.running.stack[j]?) ∧
      ∀ j, source + n ≤ j → j < target → stack[j]? = m.running.stack[j]? := by
  induction n generalizing target source m with
  | zero => exact ⟨m.running.stack, rfl, rfl, nofun, fun _ _ => rfl, fun _ _ _ => rfl⟩
  | succ n ih =>
    have hget := Array.getElem?_eq_getElem (show source < m.running.stack.size by omega)
    generalize m.running.stack[source] = v at hget
    obtain ⟨moved, hmoved⟩ : ∃ moved,
        moved = (m.running.stack.setIfInBounds source .nil).setIfInBounds target v := ⟨_, rfl⟩
    have hwrite : writeSlot target v (m.withStack (m.running.stack.setIfInBounds source .nil)) =
        .ok () (m.withStack moved) := by
      rw [hmoved]
      refine writeSlot_apply v ?_
      rw [Machine.stack_withStack, Array.size_setIfInBounds]
      omega
    have hsize : moved.size = m.running.stack.size := by
      rw [hmoved, Array.size_setIfInBounds, Array.size_setIfInBounds]
    have hsame (j : Nat) (hsource : j ≠ source) (htarget : j ≠ target) :
        moved[j]? = m.running.stack[j]? := by
      rw [hmoved, Array.getElem?_setIfInBounds_ne htarget.symm,
        Array.getElem?_setIfInBounds_ne hsource.symm]
    obtain ⟨stack, hmove, hsize', hmid, hlow, hbetween⟩ := ih (m := m.withStack moved)
      (show source + 1 + n ≤ target + 1 by omega) (by rw [Machine.stack_withStack]; omega)
    rw [Machine.stack_withStack] at hsize' hmid hlow hbetween
    refine ⟨stack, ?_, hsize'.trans hsize, fun k hk => ?_, fun j hj => ?_, fun j hj hj' => ?_⟩
    · rw [moveSlots, Action.bind_ok (takeSlot_apply hget), Action.bind_ok hwrite, hmove]
      rfl
    · cases k with
      | zero =>
        rw [Nat.add_zero, Nat.add_zero, hbetween target (by omega) (by omega), hmoved,
          Array.getElem?_setIfInBounds_self_of_lt (by rw [Array.size_setIfInBounds]; omega), hget]
      | succ k =>
        rw [show target + (k + 1) = target + 1 + k by omega, hmid k (by omega),
          hsame _ (by omega) (by omega)]
        congr 1
        omega
    · rw [hlow j (by omega), hsame j (by omega) (by omega)]
    · rw [hbetween j (by omega) (by omega), hsame j (by omega) (by omega)]

theorem readSlotsOnto_apply (h : HoldsFrom m.running.stack i vs) (ws : List Value) :
    readSlotsOnto i vs.length ws m = .ok (vs ++ ws) m := by
  induction vs using List.reverseRecOn generalizing ws with
  | nil => rfl
  | append_singleton vs v ih =>
    rw [List.length_append, List.length_singleton, readSlotsOnto,
      Action.bind_ok (readSlot_eq_ok.2 ⟨h.last, rfl⟩), ih h.init, List.append_assoc]
    rfl

/-- Reading values gives them in order. -/
theorem readSlots_apply (h : HoldsFrom m.running.stack i vs) : readSlots i vs.length m = .ok vs m := by
  rw [readSlots, readSlotsOnto_apply h, List.append_nil]

/-! Laying out the arguments -/

/-- The arguments, with `nil` for those that are missing. -/
def padded (p : Prototype) (args : List Value) : List Value :=
  args ++ List.replicate (p.paramCount.toNat - args.length) .nil

theorem take_padded (p : Prototype) (args : List Value) :
    (padded p args).take p.paramCount.toNat = adjusted (some p.paramCount.toNat) args := by
  rw [padded, List.take_append, adjusted, List.take_replicate]
  congr 2
  omega

theorem drop_padded (p : Prototype) (args : List Value) :
    (padded p args).drop p.paramCount.toNat = args.drop p.paramCount.toNat := by
  rw [padded, List.drop_append, List.drop_replicate, Nat.sub_self, List.replicate_zero, List.append_nil]

/-- Missing arguments are made `nil`. -/
theorem clearMissing_apply (h : HoldsFrom m.running.stack start args)
    (hsize : start + p.paramCount.toNat ≤ m.running.stack.size) :
    ∃ stack, clearSlots (start + min args.length p.paramCount.toNat)
        (p.paramCount.toNat - args.length) m = .ok () (m.withStack stack) ∧
      stack.size = m.running.stack.size ∧ (∀ j, j < start → stack[j]? = m.running.stack[j]?) ∧
      HoldsFrom stack start (padded p args) := by
  rcases Nat.le_total p.paramCount.toNat args.length with hle | hle
  · refine ⟨m.running.stack, ?_, rfl, fun _ _ => rfl, ?_⟩
    · rw [Nat.sub_eq_zero_of_le hle]
      rfl
    · rwa [padded, Nat.sub_eq_zero_of_le hle, List.replicate_zero, List.append_nil]
  · rw [Nat.min_eq_left hle]
    obtain ⟨stack, hclear, hsize, hlow, hnil⟩ := clearSlots_apply (m := m) (i := start + args.length)
      (n := p.paramCount.toNat - args.length) fun k hk => by omega
    refine ⟨stack, hclear, hsize, fun j hj => hlow j (by omega),
      (h.congr fun k hk => hlow _ (by omega)).append fun k hk => ?_⟩
    rw [List.length_replicate] at hk
    rw [hnil k hk, List.getElem?_replicate, if_pos hk]

theorem newTable_apply (t : Table) (m : Machine) :
    newTable t m = .ok (.table ⟨m.heap.tables.size⟩) (m.withHeap (m.heap.newTable t).2) := rfl

theorem Heap.table_newTable (h : Heap) (t : Table) : (h.newTable t).2.table ⟨h.tables.size⟩ = t := by
  simp [Heap.newTable, Heap.modifyTables, Heap.table]

theorem length_adjusted_some (n : Nat) (args : List Value) : (adjusted (some n) args).length = n := by
  rw [length_adjusted, Option.getD_some]

/-- The surplus arguments that a function wants in a table are read before the parameters are moved. -/
theorem layOutSurplus_eq_place (h : HoldsFrom m.running.stack start (padded p args)) :
    layOutSurplus p start args.length m = placeParameters p start args.length
      (if p.needsArg then some (args.drop p.paramCount.toNat) else none) m := by
  rw [layOutSurplus_eq]
  cases hneeds : p.needsArg with
  | false => simp only [Bool.false_eq_true, if_false, pure_bind]
  | true =>
    have hread := readSlots_apply (h.drop p.paramCount.toNat)
    rw [drop_padded, List.length_drop] at hread
    have hcount : max args.length p.paramCount.toNat - p.paramCount.toNat =
        args.length - p.paramCount.toNat := by omega
    simp only [if_true, hcount, map_eq_pure_bind, bind_assoc, Action.bind_ok hread, pure_bind]

/-- A function that takes surplus arguments finds its parameters behind these, and then the table of them if it
wants one. -/
theorem layOutSurplus_apply (hvararg : p.isVararg = true)
    (h : HoldsFrom m.running.stack start (padded p args))
    (hsize : start + max args.length p.paramCount.toNat + p.paramCount.toNat < m.running.stack.size) :
    ∃ stack, layOutSurplus p start args.length m =
        .ok (start + max args.length p.paramCount.toNat, (p.arguments args ⟨m.heap.tables.size⟩).length)
          ((m.withHeap (m.heap.withSurplus p args)).withStack stack) ∧
      stack.size = m.running.stack.size ∧ (∀ j, j < start → stack[j]? = m.running.stack[j]?) ∧
      HoldsFrom stack (start + p.paramCount.toNat) (args.drop p.paramCount.toNat) ∧
      HoldsFrom stack (start + max args.length p.paramCount.toNat)
        (p.arguments args ⟨m.heap.tables.size⟩) := by
  obtain ⟨fixed, hfixed⟩ : ∃ fixed, fixed = p.paramCount.toNat := ⟨_, rfl⟩
  obtain ⟨base, hbase⟩ : ∃ base, base = start + max args.length fixed := ⟨_, rfl⟩
  have htake := h.take p.paramCount.toNat
  have hdrop := h.drop p.paramCount.toNat
  rw [take_padded] at htake
  rw [drop_padded] at hdrop
  rw [← hfixed] at hsize htake hdrop ⊢
  obtain ⟨stack, hmove, hsize', hmoved, hlow, hbetween⟩ := moveSlots_beyond (m := m)
    (show start + fixed ≤ base by omega) (by omega)
  have hparameters : HoldsFrom stack base (adjusted (some fixed) args) := by
    intro k hk
    rw [length_adjusted_some] at hk
    rw [hmoved k hk, htake k (by rwa [length_adjusted_some])]
  have hrest : HoldsFrom stack (start + fixed) (args.drop fixed) := hdrop.congr fun k hk => by
    rw [List.length_drop] at hk
    exact hbetween _ (by omega) (by omega)
  rw [layOutSurplus_eq_place h, ← hfixed]
  unfold placeParameters
  simp only [← hfixed, ← hbase, Action.bind_ok hmove]
  cases hneeds : p.needsArg with
  | false =>
    have hargs : p.arguments args ⟨m.heap.tables.size⟩ = adjusted (some fixed) args := by
      simp [Prototype.arguments, hneeds, hfixed]
    refine ⟨stack, ?_, hsize', hlow, hrest, ?_⟩
    · simp only [Bool.false_eq_true, if_false, hargs, length_adjusted_some, Heap.withSurplus, hneeds, and_false]
      rfl
    · rwa [hargs]
  | true =>
    have hargs : p.arguments args ⟨m.heap.tables.size⟩ =
        adjusted (some fixed) args ++ [.table ⟨m.heap.tables.size⟩] := by
      simp [Prototype.arguments, hneeds, hvararg, hfixed]
    have hlt : base + fixed < stack.size := by omega
    have hother (j : Nat) (hj : j < base + fixed) :
        (stack.setIfInBounds (base + fixed) (.table ⟨m.heap.tables.size⟩))[j]? = stack[j]? :=
      Array.getElem?_setIfInBounds_ne hj.ne'
    refine ⟨stack.setIfInBounds (base + fixed) (.table ⟨m.heap.tables.size⟩), ?_,
      Array.size_setIfInBounds.trans hsize', fun j hj => (hother j (by omega)).trans (hlow j hj),
      hrest.congr fun k hk => hother _ ?_, ?_⟩
    · simp only [if_true]
      rw [Action.bind_ok (newTable_apply _ _), Action.bind_ok (writeSlot_apply _ hlt), hargs,
        List.length_append, length_adjusted_some, Heap.withSurplus, if_pos ⟨hvararg, hneeds⟩, hfixed]
      rfl
    · rw [List.length_drop] at hk
      omega
    · rw [hargs]
      refine HoldsFrom.append (hparameters.congr fun k hk => hother _ ?_) fun k hk => ?_
      · rw [length_adjusted_some] at hk
        omega
      · obtain rfl : k = 0 := by simpa using hk
        rw [length_adjusted_some]
        exact Array.getElem?_setIfInBounds_self_of_lt hlt

theorem layOutBase_apply (h : HoldsFrom m.running.stack start (padded p args))
    (hsize : start + max args.length p.paramCount.toNat + p.paramCount.toNat < m.running.stack.size) :
    ∃ stack, layOutBase p start args.length m =
        .ok (p.baseFor start args.length, (p.arguments args ⟨m.heap.tables.size⟩).length)
          ((m.withHeap (m.heap.withSurplus p args)).withStack stack) ∧
      stack.size = m.running.stack.size ∧ (∀ j, j < start → stack[j]? = m.running.stack[j]?) ∧
      (p.isVararg = true → HoldsFrom stack (start + p.paramCount.toNat) (args.drop p.paramCount.toNat)) ∧
      HoldsFrom stack (p.baseFor start args.length) (p.arguments args ⟨m.heap.tables.size⟩) := by
  unfold layOutBase Prototype.baseFor
  cases hvararg : p.isVararg with
  | true =>
    obtain ⟨stack, hlay, hsize', hlow, hkept, hargs⟩ := layOutSurplus_apply hvararg h hsize
    exact ⟨stack, hlay, hsize', hlow, fun _ => hkept, hargs⟩
  | false =>
    have hargs : p.arguments args ⟨m.heap.tables.size⟩ = adjusted (some p.paramCount.toNat) args := by
      simp [Prototype.arguments, hvararg]
    refine ⟨m.running.stack, ?_, rfl, fun _ _ => rfl, nofun, ?_⟩
    · simp only [Bool.false_eq_true, if_false, hargs, length_adjusted_some, Heap.withSurplus, hvararg,
        false_and]
      rfl
    · rw [hargs, ← take_padded]
      exact h.take _

theorem finishLayOut_apply (m : Machine) (h : Heap) {base live : Nat}
    (hsize : base + max p.maxStack.toNat live ≤ stack.size) :
    ∃ stack', finishLayOut p base live ((m.withHeap h).withStack stack) =
        .ok (p, base, base + max p.maxStack.toNat live)
          (((m.withHeap h).withStack stack').withTop (base + max p.maxStack.toNat live)) ∧
      (∀ j, j < base + live → stack'[j]? = stack[j]?) ∧
      HoldsFrom stack' (base + live) (List.replicate (p.maxStack.toNat - live) .nil) := by
  have hcount : base + max p.maxStack.toNat live - (base + live) = p.maxStack.toNat - live := by omega
  obtain ⟨stack', hclear, -, hlow, hnil⟩ := clearSlots_apply (m := (m.withHeap h).withStack stack)
    (i := base + live) (n := p.maxStack.toNat - live) fun k hk => by
      rw [Machine.stack_withStack]
      omega
  refine ⟨stack', ?_, hlow, fun k hk => ?_⟩
  · simp only [finishLayOut, hcount]
    rw [Action.bind_ok hclear]
    rfl
  · rw [List.length_replicate] at hk
    rw [hnil k hk, List.getElem?_replicate, if_pos hk]

theorem checkDepth_apply (h : m.depth < m.options.maxDepth) : checkDepth m = .ok () m :=
  if_neg (Nat.not_le.2 h)

/-- There is a frame for a call, and there are slots. -/
def Machine.Admits (m : Machine) (p : Prototype) (slot argCount : Nat) : Prop :=
  m.depth < m.options.maxDepth ∧ m.running.HasRoom m.options.maxStack (p.extent slot argCount)

/-- A function that is called gets its arguments laid out. -/
theorem layOutFrame_apply {c : ClosureId} {slot : Nat} (hp : (m.heap.closure c).proto = p)
    (hadmits : m.Admits p slot args.length) (hargs : HoldsFrom m.running.stack (slot + 1) args) :
    ∃ stack, layOutFrame c slot args.length m =
        .ok (p, p.baseFor (slot + 1) args.length,
            p.baseFor (slot + 1) args.length + (p.registers args ⟨m.heap.tables.size⟩).length)
          (((m.withHeap (m.heap.withSurplus p args)).withStack stack).withTop
            (p.baseFor (slot + 1) args.length + (p.registers args ⟨m.heap.tables.size⟩).length)) ∧
      (∀ j, j < slot + 1 → j < m.running.stack.size → stack[j]? = m.running.stack[j]?) ∧
      (p.isVararg = true →
        HoldsFrom stack (slot + 1 + p.paramCount.toNat) (args.drop p.paramCount.toNat)) ∧
      HoldsFrom stack (p.baseFor (slot + 1) args.length) (p.registers args ⟨m.heap.tables.size⟩) := by
  obtain ⟨as, has⟩ : ∃ as, as = p.arguments args ⟨m.heap.tables.size⟩ := ⟨_, rfl⟩
  obtain ⟨base, hbase⟩ : ∃ base, base = p.baseFor (slot + 1) args.length := ⟨_, rfl⟩
  have hextent := hadmits.2
  obtain ⟨grown, hensure, hsize, -, hgrown⟩ := ensureStack_apply hadmits.2
  unfold Prototype.extent at hensure hsize
  have hheld : HoldsFrom grown (slot + 1) args := hargs.congr fun k hk => hgrown _ (hargs.lt_size hk)
  obtain ⟨padded, hclear, hsize₁, hlow₁, hpadded⟩ := clearMissing_apply (m := m.withStack grown) (p := p)
    hheld (by rw [Machine.stack_withStack]; omega)
  rw [Machine.stack_withStack] at hsize₁ hlow₁
  obtain ⟨laid, hlay, hsize₂, hlow₂, hkept, hheld₂⟩ := layOutBase_apply
    (m := (m.withStack grown).withStack padded) hpadded (by rw [Machine.stack_withStack]; omega)
  rw [Machine.stack_withStack] at hsize₂ hlow₂
  change HoldsFrom laid (p.baseFor (slot + 1) args.length) (p.arguments args ⟨m.heap.tables.size⟩) at hheld₂
  rw [← has, ← hbase] at hheld₂
  have hlength : as.length ≤ p.paramCount.toNat + 1 := by
    rw [has, Prototype.arguments, List.length_append, length_adjusted_some]
    split <;> simp
  have hbase_le : base ≤ slot + 1 + max args.length p.paramCount.toNat := by
    rw [hbase, Prototype.baseFor]
    split <;> omega
  obtain ⟨stack, hfinish, hlow₃, hnil⟩ := finishLayOut_apply m (m.heap.withSurplus p args)
    (show base + max p.maxStack.toNat as.length ≤ laid.size by omega)
  have hregisters : p.registers args ⟨m.heap.tables.size⟩ =
      as ++ List.replicate (p.maxStack.toNat - as.length) .nil := by rw [Prototype.registers, ← has]
  have htop : (p.registers args ⟨m.heap.tables.size⟩).length = max p.maxStack.toNat as.length := by
    rw [hregisters, List.length_append, List.length_replicate]
    omega
  have hstart : slot + 1 ≤ base := hbase ▸ Nat.le_add_right ..
  refine ⟨stack, ?_, fun j hj hj' => ?_, fun hvararg => ?_, ?_⟩
  · rw [← hbase, htop, layOutFrame_eq, Action.bind_ok (checkDepth_apply hadmits.1),
      Action.bind_ok (Action.view_apply _ m), hp, Action.bind_ok hensure, Action.bind_ok hclear,
      Action.bind_ok hlay, ← hbase]
    exact has ▸ hfinish
  · rw [hlow₃ j (by omega), hlow₂ j hj, hlow₁ j hj, hgrown j hj']
  · refine (hkept hvararg).congr fun k hk => hlow₃ _ ?_
    rw [List.length_drop] at hk
    have hvbase : base = slot + 1 + max args.length p.paramCount.toNat := by
      rw [hbase, Prototype.baseFor, if_pos hvararg]
    omega
  · rw [← hbase, hregisters]
    exact (hheld₂.congr fun k hk => hlow₃ _ (by omega)).append hnil

/-- A function that is entered has received its arguments. -/
theorem enterLua_apply {c : ClosureId} {slot : Nat} (hp : (m.heap.closure c).proto = p)
    (hadmits : m.Admits p slot args.length) (hargs : HoldsFrom m.running.stack (slot + 1) args)
    (unit : Option CompiledUnit) (wanted : Option Nat) (tail : Bool) :
    ∃ f stack, enterLua c unit slot args.length wanted tail m =
        .ok () ((((m.withHeap (m.heap.withSurplus p args)).withStack stack).withTop f.top).pushed f) ∧
      f = calleeFrame c unit slot args.length wanted tail p f.base f.top ∧
      f.Receives p args ⟨m.heap.tables.size⟩ stack ∧
      ∀ j, j ≤ slot → j < m.running.stack.size → stack[j]? = m.running.stack[j]? := by
  obtain ⟨stack, hlay, hlow, hkept, hheld⟩ := layOutFrame_apply hp hadmits hargs
  refine ⟨calleeFrame c unit slot args.length wanted tail p (p.baseFor (slot + 1) args.length)
    (p.baseFor (slot + 1) args.length + (p.registers args ⟨m.heap.tables.size⟩).length), stack, ?_, rfl,
    ⟨rfl, rfl, rfl, rfl, hheld, ?_, ?_⟩, fun j hj => hlow j (Nat.lt_succ_of_le hj)⟩
  · rw [enterLua_eq, Action.bind_ok hlay]
    rfl
  · simp only [calleeFrame]
    split <;> omega
  · simp only [calleeFrame]
    cases hvararg : p.isVararg with
    | false => simp [HoldsFrom]
    | true =>
      have hbelow : p.baseFor (slot + 1) args.length -
          (max args.length p.paramCount.toNat - p.paramCount.toNat) = slot + 1 + p.paramCount.toNat := by
        rw [Prototype.baseFor, if_pos hvararg]
        omega
      simp only [if_true, hbelow]
      exact (hkept hvararg).take _

/-- A function is entered only where its call is admitted. -/
theorem admits_of_enterLua {c : ClosureId} {unit : Option CompiledUnit} {slot argCount : Nat}
    {wanted : Option Nat} {tail : Bool} (h : enterLua c unit slot argCount wanted tail m = .ok u m') :
    m.Admits (m.heap.closure c).proto slot argCount := by
  rw [enterLua_eq, layOutFrame_eq] at h
  obtain ⟨_, _, hlay, -⟩ := Action.bind_eq_ok.1 h
  obtain ⟨_, m₁, hdepth, hlay⟩ := Action.bind_eq_ok.1 hlay
  unfold checkDepth at hdepth
  split at hdepth
  · cases hdepth
  · next hlt =>
    obtain ⟨-, rfl⟩ := EStateM.Result.ok.inj hdepth
    rw [Action.bind_ok (Action.view_apply _ m)] at hlay
    obtain ⟨_, m₂, hensure, -⟩ := Action.bind_eq_ok.1 hlay
    exact ⟨Nat.not_le.1 hlt, exists_ensureStack_iff.1 ⟨m₂, hensure⟩⟩

end LuaMachine
