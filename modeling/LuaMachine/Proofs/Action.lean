import Mathlib.Tactic
import LuaMachine.Machine

/-!
What composed actions do to a machine.
-/

namespace LuaMachine

/-- How an action ends, and in which state. -/
abbrev Outcome (α : Type) := EStateM.Result Fault Machine α

/-- Changes the value and the state of an outcome. -/
def Outcome.map {α β : Type} (φ : α → β) (g : Machine → Machine) : Outcome α → Outcome β
  | .ok a m => .ok (φ a) (g m)
  | .error e m => .error e (g m)

/-- The state in which an action ends. -/
def Outcome.state {α : Type} : Outcome α → Machine
  | .ok _ m | .error _ m => m

namespace Action

variable {α β : Type} {m m' : Machine} {a : α} {e : Fault}

theorem bind_apply (x : Action α) (f : α → Action β) (m : Machine) :
    (x >>= f) m =
      match x m with
      | .ok a m' => f a m'
      | .error e m' => .error e m' := by
  simp only [bind, EStateM.bind]
  cases x m <;> rfl

theorem bind_ok {x : Action α} {f : α → Action β} (h : x m = .ok a m') :
    (x >>= f) m = f a m' := by
  rw [bind_apply, h]

@[simp]
theorem pure_apply (a : α) (m : Machine) : (pure a : Action α) m = .ok a m := rfl

@[simp]
theorem throw_apply (e : Fault) (m : Machine) : (throw e : Action α) m = .error e m := rfl

@[simp]
theorem modify_apply (f : Machine → Machine) (m : Machine) :
    (modify f : Action Unit) m = .ok () (f m) := rfl

@[simp]
theorem view_apply (f : Machine → α) (m : Machine) : view f m = .ok (f m) m := rfl

@[simp]
theorem onHeap_apply (f : Heap → α × Heap) (m : Machine) :
    onHeap f m = .ok (f m.heap).1 { m with heap := (f m.heap).2 } := rfl

theorem attempt_apply (x : Action α) (m : Machine) :
    attempt x m =
      match x m with
      | .ok a m' => .ok (.ok a) m'
      | .error e m' => if e.isFatal then .error e m' else .ok (.error e) m' := rfl

/-- Every value the action returns satisfies a predicate. -/
def Returns (P : β → Prop) (x : Action β) : Prop := ∀ m b m', x m = .ok b m' → P b

namespace Returns

variable {P : β → Prop}

theorem bind {x : Action α} {f : α → Action β} (h : ∀ a, Returns P (f a)) :
    Returns P (x >>= f) := by
  intro m b m' hb
  rw [bind_apply] at hb
  split at hb
  · next a m₁ _ => exact h a m₁ b m' hb
  · simp at hb

theorem pure {b : β} (h : P b) : Returns P (Pure.pure b : Action β) := by
  intro m b' m' hb
  obtain ⟨rfl, -⟩ : b = b' ∧ m = m' := by simpa using hb
  exact h

theorem throw {e : Fault} : Returns P (MonadExcept.throw e : Action β) := by
  intro m b m' hb
  simp at hb

theorem ite {c : Prop} [Decidable c] {x y : Action β} (hx : Returns P x) (hy : Returns P y) :
    Returns P (if c then x else y) := by
  split
  · exact hx
  · exact hy

theorem map {x : Action α} {f : α → β} (h : ∀ a, P (f a)) : Returns P (f <$> x) := by
  rw [← bind_pure_comp]
  exact bind fun a => pure (h a)

end Returns

/-- A property of actions that those have that read slots or write free ones, and whatever is done by parts that
have it. All slots behind a free one are free. -/
structure Slotwise (free : Nat → Prop) (P : {α : Type} → Action α → Prop) : Prop where
  pure {α : Type} (a : α) : P (Pure.pure a : Action α)
  andThen {α β : Type} {x : Action α} {f : α → Action β} (hx : P x) (hf : ∀ a, P (f a)) : P (x >>= f)
  readSlot (i : Nat) : P (readSlot i)
  writeSlot {i : Nat} (h : free i) (v : Value) : P (writeSlot i v)
  mono {i j : Nat} (h : free i) (hij : i ≤ j) : free j

namespace Slotwise

variable {free : Nat → Prop} {P : {α : Type} → Action α → Prop} (hP : Slotwise free P) {i : Nat}

include hP

protected theorem map {α β : Type} {x : Action α} (f : α → β) (hx : P x) : P (f <$> x) := by
  rw [← bind_pure_comp]
  exact hP.andThen hx fun a => hP.pure (f a)

protected theorem takeSlot (h : free i) : P (takeSlot i) :=
  hP.andThen (hP.readSlot i) fun v => hP.andThen (hP.writeSlot h .nil) fun _ => hP.pure v

protected theorem writeSlots (h : free i) (vs : List Value) : P (writeSlots i vs) := by
  induction vs generalizing i with
  | nil => exact hP.pure ()
  | cons v vs ih => exact hP.andThen (hP.writeSlot h v) fun _ => ih (hP.mono h (Nat.le_succ i))

protected theorem clearSlots (h : free i) (n : Nat) : P (clearSlots i n) := by
  induction n generalizing i with
  | zero => exact hP.pure ()
  | succ n ih => exact hP.andThen (hP.writeSlot h .nil) fun _ => ih (hP.mono h (Nat.le_succ i))

protected theorem moveSlots {target source : Nat} (ht : free target) (hs : free source) (n : Nat) :
    P (moveSlots target source n) := by
  induction n generalizing target source with
  | zero => exact hP.pure ()
  | succ n ih =>
    exact hP.andThen (hP.takeSlot hs) fun v => hP.andThen (hP.writeSlot ht v) fun _ =>
      ih (hP.mono ht (Nat.le_succ _)) (hP.mono hs (Nat.le_succ _))

protected theorem copySlots {target : Nat} (h : free target) (source n : Nat) :
    P (copySlots target source n) := by
  induction n generalizing target source with
  | zero => exact hP.pure ()
  | succ n ih =>
    exact hP.andThen (hP.readSlot source) fun v => hP.andThen (hP.writeSlot h v) fun _ =>
      ih (hP.mono h (Nat.le_succ _)) _

protected theorem shiftSlots {finish n : Nat} (h : free (finish - n)) : P (shiftSlots finish n) := by
  induction n generalizing finish with
  | zero => exact hP.pure ()
  | succ n ih =>
    have hrest : free (finish - 1 - n) := by rwa [Nat.sub_sub, Nat.add_comm]
    exact hP.andThen (hP.takeSlot (hP.mono h (by omega))) fun v =>
      hP.andThen (hP.writeSlot (hP.mono h (by omega)) v) fun _ => ih hrest

protected theorem takeSlots (h : free i) (n : Nat) : P (takeSlots i n) := by
  have honto (vs : List Value) : P (takeSlotsOnto i n vs) := by
    induction n generalizing vs with
    | zero => exact hP.pure vs
    | succ n ih =>
      exact hP.andThen (hP.takeSlot (hP.mono h (Nat.le_add_right ..))) fun v => ih (v :: vs)
  exact honto []

protected theorem readSlots (i n : Nat) : P (readSlots i n) := by
  have honto (vs : List Value) : P (readSlotsOnto i n vs) := by
    induction n generalizing vs with
    | zero => exact hP.pure vs
    | succ n ih => exact hP.andThen (hP.readSlot (i + n)) fun v => ih (v :: vs)
  exact honto []

end Slotwise

end Action

end LuaMachine
