import LuaMachine.Proofs.History

/-!
Slots that keep their values. A run may be stopped in any of its states, and before a given slot is assigned to
through an upvalue; the slot has its value wherever it is stopped, and at the end. What lies below the slot of
a called function lasts until the call is over.
-/

namespace LuaMachine

/-- Where a run is stopped: in some states, and before a slot is assigned to through an upvalue. -/
def HaltsAt (P : Machine → Prop) (o : Owner) (i : Nat) (act : Option Activation) (m : Machine) : Prop :=
  P m ∨ ∃ a, act = some a ∧ a.Assigns m o i

/-- A slot is about to be assigned to through an upvalue. -/
def Moment.Assigns (t : Moment) (o : Owner) (i : Nat) : Prop :=
  ∃ a, t.activation? = some a ∧ a.Assigns t.machine o i

/-- A slot keeps its value while something is run: it has it in all states before one of some kind, and at the
end, unless it is assigned to through an upvalue on the way. -/
def Lasts (embedding : Embedding) (fuel : Nat) (last : Machine → Prop) (o : Owner) (i : Nat) {α : Type}
    (drive : Run → Action α) (m : Machine) : Prop :=
  ∀ P : Machine → Prop, (∀ m', last m' → P m') → ∀ v, m.slot? o i = some v →
    (Outcome.state (drive (watched embedding (haltAt (HaltsAt P o i)) fuel) m)).slot? o i = some v

/-- One slot is looked after. -/
def Custody.ofSlot (S : Regime) (o : Owner) (i : Nat) : Custody where
  toRegime := S
  place o' j := o' = o ∧ j = i
  bounded := false

variable {U : Prototype → Prop} {honest strict : Bool} {quiet : CoroutineId → Prop} {embedding : Embedding}
  {m m' : Machine} {ts : List CoroutineId} {o : Owner} {i fuel : Nat} {L : Lease} {α : Type}
  {drive : Run → Action α} {last : Machine → Prop}

/-- If nothing is assigned to the slot, a run need not be stopped. -/
theorem Lasts.of_always (h : Lasts embedding fuel (fun _ => False) o i drive m)
    (hassigns : Always embedding (fun t => ¬ t.Assigns o i) fuel drive m) {v : Value}
    (hv : m.slot? o i = some v) : (Outcome.state (drive (run embedding fuel) m)).slot? o i = some v := by
  have hsame := hassigns (haltAt (HaltsAt (fun _ => False) o i)) fun t ht =>
    if_neg fun h => ht (h.resolve_left id)
  rw [← hsame]
  exact h _ (fun _ => id) v hv

/-- A run that is stopped before the slot is assigned to, and where a coroutine runs that is not to be
resumed. -/
theorem Custody.guards_ofSlot {P : Machine → Prop}
    (hquiet : ∀ ts m, m.Steady ⟨U, honest, quiet⟩ ts → ¬ Regime.Awake ⟨U, honest, quiet⟩ ts → P m)
    (o : Owner) (i : Nat) : (Custody.ofSlot ⟨U, honest, quiet⟩ o i).Guards (HaltsAt P o i) := by
  refine ⟨fun ts _ m hm h => .inl (hquiet ts m hm h), ?_, nofun⟩
  rintro a m _ _ ⟨rfl, rfl⟩ h
  exact .inr ⟨a, rfl, h⟩

section

variable (hU : IsCatalog U) (hosts : ∀ name, Tame ⟨U, .host, honest, strict⟩ True (embedding name))

include hosts

/-- Host functions are confined, as there is a slot to look after. -/
theorem Custody.hosts_ofSlot (o : Owner) (i : Nat) (name : String) :
    Tame ((Custody.ofSlot ⟨U, honest, quiet⟩ o i).toRegime.host strict)
      (Custody.ofSlot ⟨U, honest, quiet⟩ o i).Strict (embedding name) := by
  rw [show (Custody.ofSlot ⟨U, honest, quiet⟩ o i).Strict = True from eq_true ⟨o, i, rfl, rfl⟩]
  exact hosts name

include hU

/-- Whatever keeps to a lease leaves alone what lies below. -/
theorem lasts_of_tends (hi : i < L.floor)
    (h : ∀ {P}, (∀ m', last m' → P m') → let C := Custody.ofSlot ⟨U, honest, fun _ => False⟩ m.running.owner i
      let run := watched embedding (haltAt (HaltsAt P m.running.owner i)) fuel
      C.Guards (HaltsAt P m.running.owner i) → C.Minds run → C.Tends L m (drive run m)) :
    Lasts embedding fuel last m.running.owner i drive m := by
  intro P hP v hv
  have hguards := @Custody.guards_ofSlot U honest (fun _ => False) P
    (fun _ _ _ hawake => absurd (fun _ _ => id) hawake) m.running.owner i
  have hminds := hguards.minds hU (Custody.hosts_ofSlot hosts m.running.owner i) fuel
  exact (h hP hguards hminds).leaves.waiting _ i v ⟨rfl, rfl⟩ (List.mem_map_of_mem List.mem_cons_self)
    (fun _ => hi) hv

end

end LuaMachine
