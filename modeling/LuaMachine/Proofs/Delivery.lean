import LuaMachine.Proofs.Resuming

/-!
Where values arrive. Leaving a frame hands its results to the caller, and resuming a coroutine hands
the arguments to its body, or to the call in which it stopped.
-/

namespace LuaMachine

/-- Results as a caller wants them: all, or so many that surplus ones are dropped and missing ones are
`nil`. -/
def adjusted (wanted : Option Nat) (vs : List Value) : List Value :=
  match wanted with
  | none => vs
  | some n => vs.take n ++ List.replicate (n - vs.length) .nil

@[simp]
theorem length_adjusted (wanted : Option Nat) (vs : List Value) :
    (adjusted wanted vs).length = wanted.getD vs.length := by
  cases wanted with
  | none => rfl
  | some n =>
    simp only [adjusted, List.length_append, List.length_take, List.length_replicate, Option.getD_some]
    omega

theorem getElem?_adjusted {wanted : Option Nat} {vs : List Value} {k : Nat}
    (hk : k < wanted.getD vs.length) :
    (adjusted wanted vs)[k]? = if k < vs.length then vs[k]? else some .nil := by
  cases wanted with
  | none => exact (if_pos (show k < vs.length from hk)).symm
  | some n =>
    rw [Option.getD_some] at hk
    rw [adjusted, List.getElem?_append, List.length_take]
    split_ifs
    · rw [List.getElem?_take_of_lt hk]
    · omega
    · omega
    · rw [List.getElem?_replicate, if_pos (by omega)]

theorem adjusted_take (n : Nat) (vs : List Value) :
    adjusted (some n) (vs.take n) = adjusted (some n) vs := by
  rw [adjusted, adjusted, List.take_take, min_self, List.length_take]
  congr 2
  omega

/-- The values below a slot are the same. -/
def SameBelow (k : Nat) (stack stack' : Array Value) : Prop :=
  ∀ i v, i < k → stack[i]? = some v → stack'[i]? = some v

def Machine.withTop (m : Machine) (top : Nat) : Machine :=
  m.modifyRunning fun s => { s with top := top }

theorem setTop_apply (top : Nat) (m : Machine) : setTop top m = .ok () (m.withTop top) := rfl

/-- The free slot once a frame was left that is not there any more. -/
def Machine.topAfter (m : Machine) (f : Frame) (n : Nat) : Nat :=
  match f.wanted with
  | none => f.slot + n
  | some w =>
    match m.topFrame? with
    | some caller => if caller.isLua then caller.top else f.slot + w
    | none => f.slot + w

/-- A function was left with results. Its caller is on top again and has as many of them as it wants from the
slot of the function on; the free slot is behind them if all are wanted, else behind the registers. -/
structure Machine.HandsOver (m m' : Machine) (fs : List Frame) (caller : Frame) (slot : Nat)
    (wanted : Option Nat) (vs : List Value) : Prop where
  frames : m'.running.frames.toList = fs ++ [caller]
  results : HoldsFrom m'.running.stack slot (adjusted wanted vs)
  top : m'.running.top = wanted.elim (slot + vs.length) fun _ => caller.top
  below : SameBelow slot m.running.stack m'.running.stack

variable {m m' : Machine} {stack stack' stack'' : Array Value} {fs : List Frame} {f caller : Frame}
  {vs args : List Value} {k first : Nat} {u : Unit}

namespace SameBelow

theorem trans (h : SameBelow k stack stack') (h' : SameBelow k stack' stack'') :
    SameBelow k stack stack'' := fun i v hi hv => h' i v hi (h i v hi hv)

theorem mono {n : Nat} (h : SameBelow n stack stack') (hk : k ≤ n) : SameBelow k stack stack' :=
  fun i v hi => h i v (hi.trans_le hk)

theorem of_eq (h : ∀ j, j < k → stack'[j]? = stack[j]?) : SameBelow k stack stack' :=
  fun i _ hi hv => (h i hi).trans hv

theorem of_grown (h : ∀ j, j < stack.size → stack'[j]? = stack[j]?) : SameBelow k stack stack' :=
  fun i _ _ hv => (h i (Array.getElem?_eq_some_iff.1 hv).1).trans hv

end SameBelow

/-- Room is made for values that lie on the stack already. -/
theorem ensureStack_apply {n : Nat} (h : m.running.HasRoom m.options.maxStack n) :
    ∃ stack, ensureStack n m = .ok () (m.withStack stack) ∧ n ≤ stack.size ∧
      m.running.stack.size ≤ stack.size ∧
      ∀ j, j < m.running.stack.size → stack[j]? = m.running.stack[j]? := by
  obtain ⟨m', hensure⟩ := exists_ensureStack_iff.2 h
  obtain ⟨stack, rfl, hn, hsize, hlow, -⟩ := ensureStack_eq_ok hensure
  exact ⟨stack, hensure, hn, hsize, hlow⟩

/-- An action has failed as the stack may not be as large as it would have to be. -/
def Outcome.Overflows {α : Type} (r : Outcome α) : Prop :=
  ∃ m', r = .error (.stackOverflow m'.position false) m'

theorem ensureStack_overflows {n : Nat} (h : ¬ m.running.HasRoom m.options.maxStack n) :
    ensureStack n m = .error (.stackOverflow m.position false) m := by
  rw [Strand.HasRoom, le_max_iff, not_or] at h
  rw [ensureStack, if_neg h.1, if_pos (Nat.lt_of_not_le h.2)]

/-- A frame is left only where there is room for what its caller wants. -/
theorem hasRoom_of_leaveFrame {n : Nat} (hfs : m.running.frames.toList = fs ++ [f])
    (h : leaveFrame first n m = .ok u m') :
    m.running.HasRoom m.options.maxStack (f.slot + f.wanted.getD n + Limit.extraStack) := by
  rw [leaveFrame_apply, topFrame?_of_append hfs, leaveFrom] at h
  obtain ⟨_, m₁, hensure, -⟩ := Action.bind_eq_ok.1 h
  exact (exists_ensureStack_iff (m := m.popped)).1 ⟨m₁, hensure⟩

/-- Leaving a frame hands its results over as the caller wants them and keeps what lies below. -/
theorem leaveFrame_delivers (hfs : m.running.frames.toList = fs ++ [f]) (hslot : f.slot ≤ first)
    (hvs : HoldsFrom m.running.stack first vs)
    (hroom : m.running.HasRoom m.options.maxStack
      (f.slot + f.wanted.getD vs.length + Limit.extraStack)) :
    ∃ stack, leaveFrame first vs.length m =
        .ok () ((m.popped.withStack stack).withTop (m.popped.topAfter f vs.length)) ∧
      HoldsFrom stack f.slot (adjusted f.wanted vs) ∧ SameBelow f.slot m.running.stack stack := by
  obtain ⟨count, hcount⟩ : ∃ count, count = f.wanted.getD vs.length := ⟨_, rfl⟩
  rw [← hcount] at hroom
  obtain ⟨grown, hensure, hsize, -, hgrown⟩ := ensureStack_apply (m := m.popped) hroom
  have hheld : HoldsFrom grown first vs := hvs.congr fun k hk => hgrown _ (hvs.lt_size hk)
  obtain ⟨moved, hmove, hmoved, hlow, hmid⟩ := moveSlots_apply (m := m.popped.withStack grown)
    (n := min count vs.length) hslot fun k hk => hheld.lt_size (hk.trans_le (min_le_right ..))
  rw [Machine.stack_withStack] at hmoved hlow hmid
  obtain ⟨stack, hclear, -, hlow', hpad⟩ := clearSlots_apply (i := f.slot + vs.length)
    (n := count - vs.length) (m := (m.popped.withStack grown).withStack moved) fun k hk => by
      rw [Machine.stack_withStack]
      omega
  rw [Machine.stack_withStack] at hlow'
  refine ⟨stack, ?_, fun k hk => ?_, ?_⟩
  · rw [leaveFrame_apply, topFrame?_of_append hfs, leaveFrom, ← hcount]
    simp only [Action.bind_ok hensure, Action.bind_ok hmove, Action.bind_ok hclear]
    unfold Machine.topAfter
    cases hwanted : f.wanted with
    | none => rfl
    | some w =>
      obtain rfl : count = w := by rw [hcount, hwanted, Option.getD_some]
      change (match m.popped.topFrame? with
        | some caller => setTop (if caller.isLua then caller.top else f.slot + count)
        | none => setTop (f.slot + count)) _ = _
      cases m.popped.topFrame? <;> rfl
  · rw [length_adjusted, ← hcount] at hk
    rw [getElem?_adjusted (hcount ▸ hk)]
    split
    · next hlt => rw [hlow' _ (by omega), hmid k (lt_min hk hlt), hheld k hlt]
    · next hge =>
      have hnil := hpad (k - vs.length) (by omega)
      rwa [show f.slot + vs.length + (k - vs.length) = f.slot + k by omega] at hnil
  · have hcleared : SameBelow f.slot moved stack := .of_eq fun j hj => hlow' j (by omega)
    exact (SameBelow.of_grown hgrown).trans ((SameBelow.of_eq hlow).trans hcleared)

/-- Elsewhere it cannot be left. -/
theorem leaveFrame_overflows {n : Nat} (hfs : m.running.frames.toList = fs ++ [f])
    (hroom : ¬ m.running.HasRoom m.options.maxStack (f.slot + f.wanted.getD n + Limit.extraStack)) :
    Outcome.Overflows (leaveFrame first n m) := by
  refine ⟨m.popped, ?_⟩
  rw [leaveFrame_apply, topFrame?_of_append hfs, leaveFrom, Action.bind_apply,
    ensureStack_overflows (m := m.popped) hroom]

theorem Machine.topAfter_of_append (hfs : m.running.frames.toList = fs ++ [caller])
    (hlua : caller.isLua = true) (f : Frame) (n : Nat) :
    m.topAfter f n = f.wanted.elim (f.slot + n) fun _ => caller.top := by
  unfold topAfter
  rw [topFrame?_of_append hfs]
  cases f.wanted with
  | none => rfl
  | some w => exact if_pos hlua

/-- What a frame leaves on the stack is what the caller gets. -/
theorem Machine.handsOver_of_delivered (hfs : m.running.frames.toList = fs ++ [caller] ++ [f])
    (hlua : caller.isLua = true) (hheld : HoldsFrom stack f.slot (adjusted f.wanted vs))
    (hbelow : SameBelow f.slot m.running.stack stack) :
    m.HandsOver ((m.popped.withStack stack).withTop (m.popped.topAfter f vs.length)) fs caller f.slot
      f.wanted vs := by
  have hpopped : m.popped.running.frames.toList = fs ++ [caller] := by
    rw [m.frames_popped, hfs, List.dropLast_concat]
  exact ⟨hpopped, hheld, topAfter_of_append hpopped hlua f vs.length, hbelow⟩

/-- A function of which a Lua function waits for the results is left with them, or the stack overflows. -/
theorem leaveFrame_handsOver (hfs : m.running.frames.toList = fs ++ [caller] ++ [f])
    (hlua : caller.isLua = true) (hslot : f.slot ≤ first) (hvs : HoldsFrom m.running.stack first vs) :
    (∃ m', leaveFrame first vs.length m = .ok () m' ∧
      m.HandsOver m' fs caller f.slot f.wanted vs) ∨
    Outcome.Overflows (leaveFrame first vs.length m) := by
  by_cases hroom : m.running.HasRoom m.options.maxStack
      (f.slot + f.wanted.getD vs.length + Limit.extraStack)
  · obtain ⟨stack, hleave, hheld, hbelow⟩ := leaveFrame_delivers hfs hslot hvs hroom
    exact .inl ⟨_, hleave, m.handsOver_of_delivered hfs hlua hheld hbelow⟩
  · exact .inr (leaveFrame_overflows hfs hroom)

/-! Results that were handed over -/

/-- The values in consecutive slots, `nil` where there is none. -/
def Strand.values (s : Strand) (first n : Nat) : List Value :=
  (List.range n).map fun k => s.stack[first + k]?.getD .nil

@[simp]
theorem Strand.length_values (s : Strand) (first n : Nat) : (s.values first n).length = n := by
  simp [values]

theorem Strand.take_values (s : Strand) (first n w : Nat) :
    (s.values first n).take w = s.values first (min w n) := by
  rw [values, ← List.map_take, List.take_range, values]

theorem Strand.holdsFrom_values {s : Strand} {n : Nat} (hn : ∀ k, k < n → first + k < s.stack.size) :
    HoldsFrom s.stack first (s.values first n) := by
  intro k hk
  rw [length_values] at hk
  simp [values, hk, Array.getElem?_eq_getElem (hn k hk)]

/-- Slots that are new hold `nil`. -/
theorem Strand.values_of_grown {s : Strand} {n : Nat} (hold : ∀ j, j < s.stack.size → stack[j]? = s.stack[j]?)
    (hnew : ∀ j, s.stack.size ≤ j → j < stack.size → stack[j]? = some .nil) :
    Strand.values (s.modifyStack fun _ => stack) first n = s.values first n := by
  refine List.map_congr_left fun k _ => ?_
  change stack[first + k]?.getD .nil = s.stack[first + k]?.getD .nil
  by_cases hlt : first + k < s.stack.size
  · rw [hold _ hlt]
  · rw [Array.getElem?_eq_none (Nat.le_of_not_lt hlt)]
    by_cases hlt' : first + k < stack.size
    · rw [hnew _ (Nat.le_of_not_lt hlt) hlt']
      rfl
    · rw [Array.getElem?_eq_none (Nat.le_of_not_lt hlt')]

theorem lt_size_of_moveSlots {target source n : Nat} (h : moveSlots target source n m = .ok u m') :
    ∀ k, k < n → source + k < m.running.stack.size := by
  induction n generalizing target source m with
  | zero => nofun
  | succ n ih =>
    obtain ⟨v, m₁, htake, h⟩ := Action.bind_eq_ok.1 h
    obtain ⟨_, m₂, hwrite, h⟩ := Action.bind_eq_ok.1 h
    obtain ⟨hget, rfl⟩ := takeSlot_eq_ok.1 htake
    obtain ⟨-, rfl⟩ := writeSlot_eq_ok.1 hwrite
    intro k hk
    cases k with
    | zero => exact (Array.getElem?_eq_some_iff.1 hget).1
    | succ k =>
      have hlt := ih h k (by omega)
      simp only [Machine.stack_withStack, Array.size_setIfInBounds] at hlt
      omega

/-- Where a frame was left, the results that its caller wants were on the stack once there was room for them. -/
theorem leaveFrame_grows {n : Nat} (hfs : m.running.frames.toList = fs ++ [f])
    (h : leaveFrame first n m = .ok u m') :
    ∃ stack, leaveFrame first n (m.withStack stack) = .ok u m' ∧
      (∀ k, k < min (f.wanted.getD n) n → first + k < stack.size) ∧
      (∀ j, j < m.running.stack.size → stack[j]? = m.running.stack[j]?) ∧
      ∀ j, m.running.stack.size ≤ j → j < stack.size → stack[j]? = some .nil := by
  have htop := topFrame?_of_append hfs
  rw [leaveFrame_apply, htop, leaveFrom_some] at h
  obtain ⟨_, m₁, hmoved, hsettle⟩ := Action.bind_eq_ok.1 h
  obtain ⟨_, m₂, hensure, hmove⟩ := Action.bind_eq_ok.1 hmoved
  obtain ⟨stack, rfl, hsize, -, hold, hnew⟩ := ensureStack_eq_ok hensure
  obtain ⟨_, m₃, hmoves, -⟩ := Action.bind_eq_ok.1 hmove
  refine ⟨stack, ?_, lt_size_of_moveSlots hmoves, hold, hnew⟩
  have htop' : (m.withStack stack).topFrame? = some f := htop
  have hroom : ensureStack (f.slot + f.wanted.getD n + Limit.extraStack) (m.withStack stack).popped =
      .ok () (m.popped.withStack stack) := if_pos hsize
  rw [leaveFrame_apply, htop', leaveFrom_some]
  refine Action.bind_eq_ok.2 ⟨_, m₁, Action.bind_eq_ok.2 ⟨_, _, hroom, hmove⟩, hsettle⟩

/-- Results that are not wanted make no difference. -/
theorem leaveFrame_of_wanted {n w : Nat} (hfs : m.running.frames.toList = fs ++ [f])
    (hwanted : f.wanted = some w) : leaveFrame first n m = leaveFrame first (min w n) m := by
  rcases le_total n w with hle | hle
  · rw [min_eq_right hle]
  · rw [leaveFrame_apply, leaveFrame_apply, topFrame?_of_append hfs, leaveFrom, leaveFrom, hwanted]
    simp only [Option.getD_some, min_eq_left hle, min_self, Nat.sub_eq_zero_of_le hle, Nat.sub_self]
    rfl

/-- The caller of a function that was left has got its results. -/
theorem leaveFrame_hasHandedOver {n : Nat} (hfs : m.running.frames.toList = fs ++ [caller] ++ [f])
    (hlua : caller.isLua = true) (hslot : f.slot ≤ first) (h : leaveFrame first n m = .ok u m') :
    m.HandsOver m' fs caller f.slot f.wanted (m.running.values first n) := by
  obtain ⟨stack, hleave, hreads, hold, hnew⟩ := leaveFrame_grows hfs h
  have hfs' : (m.withStack stack).running.frames.toList = fs ++ [caller] ++ [f] := hfs
  have hvalues (n : Nat) : (m.withStack stack).running.values first n = m.running.values first n :=
    Strand.values_of_grown hold hnew
  have hover {n : Nat} (hn : ∀ k, k < n → first + k < stack.size)
      (hleave : leaveFrame first n (m.withStack stack) = .ok u m') :
      m.HandsOver m' fs caller f.slot f.wanted (m.running.values first n) := by
    have hheld : HoldsFrom stack first (m.running.values first n) := by
      rw [← hvalues]
      exact Strand.holdsFrom_values hn
    have hleft := leaveFrame_handsOver hfs' hlua hslot hheld
    rw [Strand.length_values, hleave] at hleft
    rcases hleft with ⟨m'', hok, hover⟩ | ⟨m'', herror⟩
    · obtain rfl := (EStateM.Result.ok.inj hok).2
      exact ⟨hover.frames, hover.results, hover.top, (SameBelow.of_grown hold).trans hover.below⟩
    · cases herror
  cases hwanted : f.wanted with
  | none =>
    rw [hwanted, Option.getD_none, min_self] at hreads
    exact hwanted ▸ hover hreads hleave
  | some w =>
    rw [hwanted, Option.getD_some] at hreads
    rw [leaveFrame_of_wanted hfs' hwanted] at hleave
    have hsome := hover hreads hleave
    rw [hwanted] at hsome
    refine ⟨hsome.frames, ?_, hsome.top, hsome.below⟩
    have hresults := hsome.results
    rwa [← Strand.take_values, adjusted_take] at hresults

/-- The results of a coroutine that has ended are all that is left on its stack. -/
theorem gather_apply (hvs : HoldsFrom m.running.stack 0 vs) (htop : m.running.top = vs.length) :
    ∃ stack, gather m = .ok vs ((m.withStack stack).withTop 0) := by
  obtain ⟨stack, htake⟩ := takeSlots_apply hvs
  refine ⟨stack, ?_⟩
  rw [gather, Action.bind_ok (Action.view_apply _ m), htop, Action.bind_ok htake]
  rfl

/-- The arguments of a resumption lie behind what is on the stack. -/
theorem placeArguments_delivers (slot : Nat) (args : List Value) (m : Machine) :
    (∃ stack, placeArguments slot args m = .ok () ((m.withStack stack).withTop (slot + args.length)) ∧
      HoldsFrom stack slot args ∧ SameBelow slot m.running.stack stack) ∨
    Outcome.Overflows (placeArguments slot args m) := by
  by_cases hroom : m.running.HasRoom m.options.maxStack (slot + args.length + Limit.extraStack)
  · obtain ⟨grown, hensure, hsize, -, hgrown⟩ := ensureStack_apply hroom
    obtain ⟨m₁, hwrite⟩ : ∃ m₁, writeSlots slot args (m.withStack grown) = .ok () m₁ :=
      exists_writeSlots (by rw [Machine.stack_withStack]; omega)
    obtain ⟨stack, rfl, -, hlow, hheld, -⟩ := writeSlots_eq_ok hwrite
    rw [Machine.stack_withStack] at hlow
    refine .inl ⟨stack, ?_, hheld, (SameBelow.of_grown hgrown).trans (.of_eq hlow)⟩
    rw [placeArguments, Action.bind_ok hensure, Action.bind_ok hwrite]
    rfl
  · refine .inr ⟨m, ?_⟩
    rw [placeArguments, Action.bind_apply, ensureStack_overflows hroom]

/-- A coroutine goes on where a host function stopped, whose results the arguments are. -/
theorem wake_delivers {host : Frame} (hfs : m.running.frames.toList = fs ++ [host])
    (hslot : host.slot ≤ m.running.top) (args : List Value) :
    (∃ stack, wake args m =
        .ok () ((m.popped.withStack stack).withTop (m.popped.topAfter host args.length)) ∧
      HoldsFrom stack host.slot (adjusted host.wanted args) ∧
        SameBelow host.slot m.running.stack stack) ∨
    Outcome.Overflows (wake args m) := by
  rw [wake_apply]
  rcases placeArguments_delivers m.running.top args m with ⟨placed, hplace, hheld, hsame⟩ | ⟨m', hplace⟩
  · rw [Action.bind_ok hplace]
    obtain ⟨m₁, hm₁⟩ : ∃ m₁, m₁ = (m.withStack placed).withTop (m.running.top + args.length) := ⟨_, rfl⟩
    have hfs₁ : m₁.running.frames.toList = fs ++ [host] := hm₁ ▸ hfs
    rw [← hm₁]
    by_cases hroom : m₁.running.HasRoom m₁.options.maxStack
        (host.slot + host.wanted.getD args.length + Limit.extraStack)
    · obtain ⟨stack, hleave, hdelivered, hbelow⟩ := leaveFrame_delivers hfs₁ hslot
        (hm₁ ▸ hheld : HoldsFrom m₁.running.stack _ args) hroom
      subst hm₁
      have hkept : SameBelow host.slot m.running.stack placed := fun i v hi => hsame i v (hi.trans_le hslot)
      exact .inl ⟨stack, hleave, hdelivered, hkept.trans hbelow⟩
    · exact .inr (leaveFrame_overflows hfs₁ hroom)
  · exact .inr ⟨m', by rw [Action.bind_apply, hplace]⟩

/-- The caller of the host function that stopped gets the arguments as its results, or the stack overflows. -/
theorem wake_handsOver {host : Frame} (hfs : m.running.frames.toList = fs ++ [caller] ++ [host])
    (hlua : caller.isLua = true) (hslot : host.slot ≤ m.running.top) (args : List Value) :
    (∃ m', wake args m = .ok () m' ∧ m.HandsOver m' fs caller host.slot host.wanted args) ∨
    Outcome.Overflows (wake args m) :=
  (wake_delivers hfs hslot args).imp_left fun ⟨_, hwake, hheld, hbelow⟩ =>
    ⟨_, hwake, m.handsOver_of_delivered hfs hlua hheld hbelow⟩

end LuaMachine
