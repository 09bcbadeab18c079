import LuaMachine.Proofs.StackTop

/-!
What actions on slots leave on the stack, and that they succeed within it.
-/

namespace LuaMachine

/-- Values lie in consecutive slots from one on. -/
def HoldsFrom (stack : Array Value) (i : Nat) (vs : List Value) : Prop :=
  ∀ k, k < vs.length → stack[i + k]? = vs[k]?

/-- A stack has a number of slots, or can be given as many within a limit. -/
def Strand.HasRoom (s : Strand) (limit n : Nat) : Prop := n ≤ max s.stack.size limit

def Machine.withStack (m : Machine) (stack : Array Value) : Machine :=
  m.modifyRunning fun s => s.modifyStack fun _ => stack

namespace Machine

variable (m : Machine) (stack stack' : Array Value)

@[simp] theorem stack_withStack : (m.withStack stack).running.stack = stack := rfl

@[simp] theorem withStack_withStack : (m.withStack stack).withStack stack' = m.withStack stack' := rfl

@[simp] theorem withStack_self : m.withStack m.running.stack = m := rfl

end Machine

variable {m m' : Machine} {i j n : Nat} {v : Value} {vs : List Value} {u : Unit}
  {stack stack' : Array Value}

namespace HoldsFrom

theorem lt_size (h : HoldsFrom stack i vs) {k : Nat} (hk : k < vs.length) : i + k < stack.size := by
  have hget := h k hk
  rw [List.getElem?_eq_getElem hk] at hget
  exact (Array.getElem?_eq_some_iff.1 hget).1

theorem congr (h : HoldsFrom stack i vs)
    (hsame : ∀ k, k < vs.length → stack'[i + k]? = stack[i + k]?) : HoldsFrom stack' i vs :=
  fun k hk => (hsame k hk).trans (h k hk)

theorem init (h : HoldsFrom stack i (vs ++ [v])) : HoldsFrom stack i vs := by
  intro k hk
  rw [h k (by simp; omega), List.getElem?_append_left hk]

theorem last (h : HoldsFrom stack i (vs ++ [v])) : stack[i + vs.length]? = some v := by
  rw [h vs.length (by simp), List.getElem?_concat_length]

end HoldsFrom

theorem readSlot_eq_ok : readSlot i m = .ok v m' ↔ m.running.stack[i]? = some v ∧ m' = m := by
  unfold readSlot
  split
  · next h =>
    rw [EStateM.Result.ok.injEq, Array.getElem?_eq_getElem h, Option.some.injEq, eq_comm (a := m)]
  · next h => simp [Array.getElem?_eq_none (Nat.le_of_not_lt h)]

theorem writeSlot_eq_ok : writeSlot i v m = .ok u m' ↔
    i < m.running.stack.size ∧ m' = m.withStack (m.running.stack.setIfInBounds i v) := by
  unfold writeSlot
  split
  · next h =>
    rw [EStateM.Result.ok.injEq, eq_comm (b := m')]
    exact ⟨fun hm => ⟨h, hm.2⟩, fun hm => ⟨rfl, hm.2⟩⟩
  · next h => simp [h]

theorem writeSlot_apply (v : Value) (h : i < m.running.stack.size) :
    writeSlot i v m = .ok () (m.withStack (m.running.stack.setIfInBounds i v)) :=
  writeSlot_eq_ok.2 ⟨h, rfl⟩

/-- Consecutive slots hold the values that were written. -/
theorem writeSlots_eq_ok (h : writeSlots i vs m = .ok u m') :
    ∃ stack, m' = m.withStack stack ∧ stack.size = m.running.stack.size ∧
      (∀ j, j < i → stack[j]? = m.running.stack[j]?) ∧ HoldsFrom stack i vs ∧
      ∀ j, i + vs.length ≤ j → stack[j]? = m.running.stack[j]? := by
  induction vs generalizing i m with
  | nil =>
    obtain ⟨-, rfl⟩ := EStateM.Result.ok.inj h
    exact ⟨m.running.stack, rfl, rfl, fun _ _ => rfl, nofun, fun _ _ => rfl⟩
  | cons v vs ih =>
    obtain ⟨_, m₁, hwrite, h⟩ := Action.bind_eq_ok.1 h
    obtain ⟨hi, rfl⟩ := writeSlot_eq_ok.1 hwrite
    obtain ⟨stack, rfl, hsize, hlow, hmid, hhigh⟩ := ih h
    rw [Machine.stack_withStack] at hsize hlow hhigh
    refine ⟨stack, rfl, hsize.trans Array.size_setIfInBounds, fun j hj => ?_, fun k hk => ?_,
      fun j hj => ?_⟩
    · rw [hlow j (by omega), Array.getElem?_setIfInBounds_ne (by omega)]
    · cases k with
      | zero => simp [hlow i (by omega), hi]
      | succ k =>
        rw [List.getElem?_cons_succ, ← hmid k (by simpa using hk)]
        congr 1
        omega
    · rw [List.length_cons] at hj
      rw [hhigh j (by omega), Array.getElem?_setIfInBounds_ne (by omega)]

theorem exists_writeSlots (h : i + vs.length ≤ m.running.stack.size) :
    ∃ m', writeSlots i vs m = .ok () m' := by
  induction vs generalizing i m with
  | nil => exact ⟨m, rfl⟩
  | cons v vs ih =>
    rw [List.length_cons] at h
    have hwrite := writeSlot_apply v (show i < m.running.stack.size by omega)
    obtain ⟨m', hm'⟩ := ih (m := m.withStack (m.running.stack.setIfInBounds i v)) (i := i + 1)
      (by rw [Machine.stack_withStack, Array.size_setIfInBounds]; omega)
    exact ⟨m', (Action.bind_ok hwrite).trans hm'⟩

/-- A stack that was made larger holds `nil` in its new slots. -/
theorem ensureStack_eq_ok (h : ensureStack n m = .ok u m') :
    ∃ stack, m' = m.withStack stack ∧ n ≤ stack.size ∧ m.running.stack.size ≤ stack.size ∧
      (∀ j, j < m.running.stack.size → stack[j]? = m.running.stack[j]?) ∧
      ∀ j, m.running.stack.size ≤ j → j < stack.size → stack[j]? = some .nil := by
  unfold ensureStack at h
  split at h
  · next hle =>
    obtain ⟨-, rfl⟩ := EStateM.Result.ok.inj h
    exact ⟨m.running.stack, rfl, hle, le_rfl, fun _ _ => rfl, fun j hj hj' => by omega⟩
  · split at h
    · cases h
    · next hsmall hlimit =>
      obtain ⟨-, rfl⟩ := EStateM.Result.ok.inj h
      refine ⟨m.running.stack ++ Array.replicate
        (min (2 * n) m.options.maxStack - m.running.stack.size) .nil, rfl, ?_, ?_, fun j hj => ?_,
        fun j hj hj' => ?_⟩
      · rw [Array.size_append, Array.size_replicate]
        omega
      · rw [Array.size_append]
        omega
      · exact Array.getElem?_append_left hj
      · rw [Array.size_append, Array.size_replicate] at hj'
        rw [Array.getElem?_append_right hj, Array.getElem?_replicate, if_pos (by omega)]

theorem exists_ensureStack_iff :
    (∃ m', ensureStack n m = .ok () m') ↔ m.running.HasRoom m.options.maxStack n := by
  unfold ensureStack Strand.HasRoom
  split
  · next h => exact ⟨fun _ => h.trans (le_max_left ..), fun _ => ⟨m, rfl⟩⟩
  · split
    · next h hlimit =>
      exact ⟨nofun, fun hroom => absurd (le_max_iff.1 hroom) (by omega)⟩
    · next h hlimit => exact ⟨fun _ => (Nat.le_of_not_lt hlimit).trans (le_max_right ..), fun _ => ⟨_, rfl⟩⟩

theorem takeSlot_apply (h : m.running.stack[i]? = some v) :
    takeSlot i m = .ok v (m.withStack (m.running.stack.setIfInBounds i .nil)) := by
  rw [takeSlot, Action.bind_ok (readSlot_eq_ok.2 ⟨h, rfl⟩),
    Action.bind_ok (writeSlot_apply .nil (Array.getElem?_eq_some_iff.1 h).1)]
  rfl

theorem takeSlot_eq_ok : takeSlot i m = .ok v m' ↔
    m.running.stack[i]? = some v ∧ m' = m.withStack (m.running.stack.setIfInBounds i .nil) := by
  refine ⟨fun h => ?_, fun ⟨hget, hm⟩ => hm ▸ takeSlot_apply hget⟩
  obtain ⟨w, m₁, hread, hclear⟩ := Action.bind_eq_ok.1 h
  obtain ⟨hget, rfl⟩ := readSlot_eq_ok.1 hread
  obtain ⟨heq, hm⟩ := EStateM.Result.ok.inj (h.symm.trans (takeSlot_apply hget))
  exact ⟨heq ▸ hget, hm⟩

/-- Values that are moved down arrive as they were. -/
theorem moveSlots_apply {target source : Nat} (hle : target ≤ source)
    (hn : ∀ k, k < n → source + k < m.running.stack.size) :
    ∃ stack, moveSlots target source n m = .ok () (m.withStack stack) ∧
      stack.size = m.running.stack.size ∧ (∀ j, j < target → stack[j]? = m.running.stack[j]?) ∧
      ∀ k, k < n → stack[target + k]? = m.running.stack[source + k]? := by
  induction n generalizing target source m with
  | zero => exact ⟨m.running.stack, rfl, rfl, fun _ _ => rfl, nofun⟩
  | succ n ih =>
    have hsource : source < m.running.stack.size := hn 0 (Nat.succ_pos n)
    have hget := Array.getElem?_eq_getElem hsource
    generalize m.running.stack[source] = v at hget
    obtain ⟨taken, htaken⟩ : ∃ taken, taken = m.running.stack.setIfInBounds source .nil := ⟨_, rfl⟩
    have htake := takeSlot_apply hget
    rw [← htaken] at htake
    have hsize : taken.size = m.running.stack.size := by rw [htaken, Array.size_setIfInBounds]
    have hwrite : writeSlot target v (m.withStack taken) =
        .ok () (m.withStack (taken.setIfInBounds target v)) :=
      writeSlot_apply v (by rw [Machine.stack_withStack]; omega)
    obtain ⟨stack, hmove, hsize', hlow, hmid⟩ := ih
      (m := m.withStack (taken.setIfInBounds target v)) (show target + 1 ≤ source + 1 by omega)
      fun k hk => by
        rw [Machine.stack_withStack, Array.size_setIfInBounds, hsize, Nat.add_right_comm]
        exact hn (k + 1) (Nat.succ_lt_succ hk)
    rw [Machine.stack_withStack] at hsize' hlow hmid
    refine ⟨stack, ?_, ?_, fun j hj => ?_, fun k hk => ?_⟩
    · rw [moveSlots, Action.bind_ok htake, Action.bind_ok hwrite, hmove]
      rfl
    · rw [hsize', Array.size_setIfInBounds, hsize]
    · rw [hlow j (by omega), Array.getElem?_setIfInBounds_ne (by omega), htaken,
        Array.getElem?_setIfInBounds_ne (by omega)]
    · cases k with
      | zero => rw [hlow _ (by omega), Nat.add_zero, Nat.add_zero,
          Array.getElem?_setIfInBounds_self_of_lt (by omega), hget]
      | succ k =>
        have hmoved := hmid k (by omega)
        rw [Array.getElem?_setIfInBounds_ne (by omega), htaken,
          Array.getElem?_setIfInBounds_ne (by omega)] at hmoved
        rwa [show target + (k + 1) = target + 1 + k by omega,
          show source + (k + 1) = source + 1 + k by omega]

theorem clearSlots_apply (hn : ∀ k, k < n → i + k < m.running.stack.size) :
    ∃ stack, clearSlots i n m = .ok () (m.withStack stack) ∧
      stack.size = m.running.stack.size ∧ (∀ j, j < i → stack[j]? = m.running.stack[j]?) ∧
      ∀ k, k < n → stack[i + k]? = some .nil := by
  induction n generalizing i m with
  | zero => exact ⟨m.running.stack, rfl, rfl, fun _ _ => rfl, nofun⟩
  | succ n ih =>
    have hi : i < m.running.stack.size := hn 0 (Nat.succ_pos n)
    have hwrite := writeSlot_apply .nil hi
    obtain ⟨stack, hclear, hsize, hlow, hmid⟩ := ih (i := i + 1)
      (m := m.withStack (m.running.stack.setIfInBounds i .nil)) fun k hk => by
        rw [Machine.stack_withStack, Array.size_setIfInBounds, Nat.add_right_comm]
        exact hn (k + 1) (Nat.succ_lt_succ hk)
    rw [Machine.stack_withStack] at hsize hlow
    refine ⟨stack, ?_, hsize.trans Array.size_setIfInBounds, fun j hj => ?_, fun k hk => ?_⟩
    · rw [clearSlots, Action.bind_ok hwrite, hclear]
      rfl
    · rw [hlow j (by omega), Array.getElem?_setIfInBounds_ne (by omega)]
    · cases k with
      | zero => rw [hlow _ (by omega), Nat.add_zero, Array.getElem?_setIfInBounds_self_of_lt (by omega)]
      | succ k =>
        rw [show i + (k + 1) = i + 1 + k by omega]
        exact hmid k (by omega)

theorem takeSlotsOnto_apply (h : HoldsFrom m.running.stack i vs) (ws : List Value) :
    ∃ stack, takeSlotsOnto i vs.length ws m = .ok (vs ++ ws) (m.withStack stack) := by
  induction vs using List.reverseRecOn generalizing m ws with
  | nil => exact ⟨m.running.stack, rfl⟩
  | append_singleton vs v ih =>
    obtain ⟨m₁, hm₁⟩ : ∃ m₁, m₁ = m.withStack (m.running.stack.setIfInBounds (i + vs.length) .nil) :=
      ⟨_, rfl⟩
    have hrest : HoldsFrom m₁.running.stack i vs := h.init.congr fun k hk => by
      rw [hm₁, Machine.stack_withStack, Array.getElem?_setIfInBounds_ne (by omega)]
    obtain ⟨stack, htake⟩ := ih hrest (v :: ws)
    refine ⟨stack, ?_⟩
    rw [List.length_append, List.length_singleton, takeSlotsOnto,
      Action.bind_ok (takeSlot_apply h.last), ← hm₁, htake, hm₁, List.append_assoc]
    rfl

/-- Taking values gives them in order. -/
theorem takeSlots_apply (h : HoldsFrom m.running.stack i vs) :
    ∃ stack, takeSlots i vs.length m = .ok vs (m.withStack stack) := by
  obtain ⟨stack, htake⟩ := takeSlotsOnto_apply h []
  exact ⟨stack, by rw [takeSlots, htake, List.append_nil]⟩

end LuaMachine
