import LuaMachine.Proofs.Bounds
import LuaMachine.Proofs.LeaseRun
import LuaMachine.Proofs.Reachable

/-!
Upvalues over the history of a machine. If no cell is listed as open to begin with, then whatever is run, each
strand lists the cells that are open over it, and they belong to its frames. Verified code captures registers
only, which are on the stack.
-/

namespace LuaMachine

/-- A machine between errands, each of which came to an end, that had no cells listed to begin with. -/
inductive Machine.AtRest (R : Conduct) : Machine → Prop
  | blank {m : Machine} (h : m.Blank) (hopen : m.running.openCells = []) : AtRest R m
  | ran {m : Machine} (h : AtRest R m) (x : Errand R)
      (hend : ∀ e m', x.outcome m = .error e m' → e.isFatal = false) :
    AtRest R (x.outcome m).state

/-- A state in which such a machine can be, also within an errand. -/
def Machine.Occurs (R : Conduct) (m : Machine) : Prop :=
  ∃ (m₀ : Machine) (x : Errand R) (P : Machine → Prop), m₀.AtRest R ∧ m = (x.upTo P m₀).state

variable {U : Prototype → Prop} {R : Conduct} {honest strict bounded : Bool} {m : Machine}

/-- Whether an action has come to its end. -/
def Outcome.succeeds {α : Type} : Outcome α → Bool
  | .ok _ _ => true
  | .error _ _ => false

namespace Machine

theorem AtRest.of_succeeds (h : m.AtRest R) (x : Errand R) (hx : (x.outcome m).succeeds = true) :
    AtRest R (x.outcome m).state := by
  refine .ran h x fun e m' herror => ?_
  rw [herror] at hx
  cases hx

theorem AtRest.idle (h : m.AtRest R) : m.Idle R := by
  induction h with
  | blank h _ => exact .blank h
  | ran _ x hend ih => exact .ran ih x hend

theorem Occurs.reachable (h : m.Occurs R) : m.Reachable R := by
  obtain ⟨m₀, x, P, hrest, rfl⟩ := h
  exact ⟨m₀, x, P, hrest.idle, rfl⟩

theorem Blank.kempt (h : m.Blank) (hopen : m.running.openCells = []) : m.Kempt honest bounded where
  running := .of_nil hopen
  parked := by simp [h.parked]
  stored c s hs := by
    rw [Heap.coroutine, h.coroutines] at hs
    cases hs
  main id n i hid := absurd hid (h.cells id _ i)

end Machine

/-- What is seen to be performed next captures registers only. -/
theorem Setting.Seen.not_strays {S : Setting} (hS : S.Valid) {a : Activation}
    {r : Outcome (Option Activation)} (h : S.Seen (.step a m r)) : ¬ a.Strays m := by
  obtain ⟨hm, ⟨depth, below, f, c, hwork⟩, -⟩ := h
  rintro ⟨x, child, cs, after, reg, hfetch, hreg, hstray⟩
  obtain ⟨hfits, hwindow⟩ := hwork.fits hS hm hfetch
  have hmem : reg ∈ (Operation.closure x child cs).registers := by
    refine List.mem_cons_of_mem _ (List.mem_filterMap.2 ⟨_, hreg, rfl⟩)
  have hlt := hfits.registers reg hmem
  exact hstray ⟨hlt, by omega⟩

namespace Errand

variable (x : Errand ⟨U, .host, honest, strict⟩) {P : Machine → Prop}

/-- An errand that is stopped, also before something is captured that is no register. -/
def Strays (P : Machine → Prop) (o : Option Activation) (m : Machine) : Prop :=
  P m ∨ ∃ a, o = some a ∧ a.Strays m

/-- What is never seen to be performed next stops no errand of a verified program. -/
theorem upTo_eq_of_unseen (hU : IsProgram U) (x : Errand ⟨U, .host, true, true⟩) (hm : m.Sound U true)
    {Bad : Activation → Machine → Prop}
    (hbad : ∀ S : Setting, S.Valid → ∀ a m r, S.Seen (.step a m r) → ¬ Bad a m) :
    x.upTo P m = x.script
      (watched x.embedding (haltAt fun o m => P m ∨ ∃ a, o = some a ∧ Bad a m) x.fuel) m := by
  have hroutine (name : String) : Routine U true (x.embedding name) :=
    (x.hosts name).routine rfl rfl fun _ => rfl
  refine (watched_eq_of_seen hU hroutine (x.isScript.routine rfl rfl (k := true) fun _ => rfl) hm
    (fun t e h => ?_) (fun _ _ _ _ => rfl) (fun t e h => ?_) (fun S hS _ t ht h => ?_) x.fuel).symm
  · unfold stopAt at h
    split at h
    · exact Option.some.inj h ▸ rfl
    · cases h
  · unfold stopAt at h
    unfold haltAt
    split at h
    · next hP => rw [if_pos (.inl hP), h]
    · cases h
  · refine if_neg ?_
    rintro (hP | ⟨a, ha, h'⟩)
    · rw [stopAt, if_pos hP] at h
      cases h
    · cases t with
      | takeUp m => cases ha
      | step a' m r =>
        obtain rfl := Option.some.inj ha
        exact hbad S hS a' m r ht h'

/-- Code that is verified captures no slots but registers. -/
theorem upTo_eq (hU : IsProgram U) (x : Errand ⟨U, .host, true, true⟩) (hm : m.Sound U true) :
    x.upTo P m = x.script (watched x.embedding (haltAt (Strays P)) x.fuel) m :=
  x.upTo_eq_of_unseen hU hm fun _ hS _ _ _ h => h.not_strays hS

/-- A verified program comes to rest in a sound state. -/
theorem sound (hU : IsProgram U) (x : Errand ⟨U, .host, true, true⟩) (hm : m.Sound U true)
    (hend : ∀ e m', x.outcome m = .error e m' → e.isFatal = false) :
    (x.outcome m).state.Sound U true := by
  have hvalid : Setting.Valid ⟨U, false, true, .crash⟩ := ⟨hU, rfl, nofun, nofun⟩
  have hroutine (name : String) : Routine U true (x.embedding name) :=
    (x.hosts name).routine rfl rfl fun _ => rfl
  have hwatch : Setting.Watches ⟨U, false, true, .crash⟩ (fun _ => none) (tailAlarm true .crash)
      fun _ => none := watches_tailAlarm _ fun _ _ => rfl
  have halike := (x.isScript.routine rfl rfl (k := true) fun _ => rfl).alike hvalid
    (engines_watched hvalid hroutine hwatch x.fuel) hm
  rw [tailAlarm_true, watched_none] at halike
  change (∃ m', x.outcome m = .error .crash m') ∨
    _ ∧ Setting.Settles ⟨U, false, true, .crash⟩ true m (x.outcome m) at halike
  rcases halike with ⟨m', hcrash⟩ | ⟨-, hsettles⟩
  · cases hend .crash m' hcrash
  · cases ho : x.outcome m with
    | ok a m' =>
      rw [ho] at hsettles
      exact hsettles.sound
    | error e m' =>
      rw [ho] at hsettles
      exact (hsettles.resolve_left (by simp [hend e m' ho])).sound

/-- What an errand does, up to where it is stopped, keeps the cells that are open in order. -/
theorem kempt_watched (hU : IsCatalog U) {Q : Option Activation → Machine → Prop}
    (hstrays : bounded = true → ∀ a m, a.Strays m → Q (some a) m)
    (hm : m.Steady ⟨U, honest, fun _ => False⟩ []) (hk : m.Kempt honest bounded) :
    Machine.Kempt honest bounded
      (Outcome.state (x.script (watched x.embedding (haltAt Q) x.fuel) m)) := by
  let C : Custody := ⟨⟨U, honest, fun _ => False⟩, fun _ _ => False, bounded⟩
  have hfree : ¬ C.Strict := fun ⟨_, _, h⟩ => h
  have hguards : C.Guards Q :=
    ⟨fun _ _ _ _ hawake => absurd (fun _ _ => id) hawake, fun _ _ _ _ h => h.elim, hstrays⟩
  have hhosts (name : String) : Tame (C.toRegime.host strict) C.Strict (x.embedding name) :=
    (x.hosts name).tame rfl hfree
  have hminds := hguards.minds hU hhosts x.fuel
  have hseat : Conduct.Settled ⟨U, .host, honest, strict⟩ [] 0 m :=
    ⟨⟨Nat.zero_le _, absurd rfl⟩, absurd rfl⟩
  exact ((x.isScript.tame rfl hfree).tends hU hminds (fun _ _ => id) (fun _ => id) rfl hm hseat hk
    (.all hk) nofun le_rfl (.inr rfl)).kempt

end Errand

namespace Machine

theorem AtRest.sound (hU : IsProgram U) (h : m.AtRest ⟨U, .host, true, true⟩) : m.Sound U true := by
  induction h with
  | blank h _ => exact h.toFresh.sound U true
  | ran _ x hend ih => exact x.sound hU ih hend

/-- Verified code keeps the cells that are open within the stack. -/
theorem AtRest.kempt_upTo (hU : IsProgram U) (h : m.AtRest ⟨U, .host, true, true⟩)
    (hk : m.Kempt true true) (x : Errand ⟨U, .host, true, true⟩) (P : Machine → Prop) :
    (x.upTo P m).state.Kempt true true := by
  rw [x.upTo_eq hU (h.sound hU)]
  exact x.kempt_watched hU.isCatalog (fun _ a m ha => .inr ⟨a, rfl, ha⟩) (h.idle.steady hU.isCatalog) hk

theorem Occurs.kempt_verified (hU : IsProgram U) (h : m.Occurs ⟨U, .host, true, true⟩) :
    m.Kempt true true := by
  obtain ⟨m₀, x, P, hrest, rfl⟩ := h
  refine hrest.kempt_upTo hU ?_ x P
  induction hrest with
  | blank h hopen => exact h.kempt hopen
  | ran hrest x _ ih => exact x.upTo_never _ ▸ hrest.kempt_upTo hU ih x fun _ => False

/-- Other code keeps them in order as well, but may capture what is no register. -/
theorem Occurs.kempt (hU : IsCatalog U) (h : m.Occurs ⟨U, .host, honest, strict⟩) :
    m.Kempt honest false := by
  have hupTo {m : Machine} (h : m.AtRest ⟨U, .host, honest, strict⟩) (hk : m.Kempt honest false)
      (x : Errand ⟨U, .host, honest, strict⟩) (P : Machine → Prop) :
      (x.upTo P m).state.Kempt honest false :=
    x.kempt_watched hU (Q := fun _ => P) nofun (h.idle.steady hU) hk
  obtain ⟨m₀, x, P, hrest, rfl⟩ := h
  refine hupTo hrest ?_ x P
  induction hrest with
  | blank h hopen => exact h.kempt hopen
  | ran hrest x _ ih => exact x.upTo_never _ ▸ hupTo hrest ih x fun _ => False

end Machine

end LuaMachine
