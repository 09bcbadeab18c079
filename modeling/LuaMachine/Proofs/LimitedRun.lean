import LuaMachine.Proofs.LimitedSteps
import LuaMachine.Proofs.Upvalues

/-!
Limits over the history of a machine. In every state in which it can be while verified code is run, no strand
has more frames or slots than the options of the machine allow, and the calls nested in one another, of which
resumptions are some, are no more than allowed either.
-/

namespace LuaMachine

/-- What becomes of a machine by errands, each of which comes to an end. -/
inductive Machine.ComesToRest (R : Conduct) (m₀ : Machine) : Machine → Prop
  | start : ComesToRest R m₀ m₀
  | ran {m : Machine} (h : ComesToRest R m₀ m) (x : Errand R)
      (hend : ∀ e m', x.outcome m = .error e m' → e.isFatal = false) : ComesToRest R m₀ (x.outcome m).state

/-- A state in which a machine can be later on, also within an errand. -/
def Machine.Reaches (R : Conduct) (m₀ m : Machine) : Prop :=
  ∃ (m₁ : Machine) (x : Errand R) (P : Machine → Prop), m₀.ComesToRest R m₁ ∧ m = (x.upTo P m₁).state

variable {U : Prototype → Prop} {R : Conduct} {o : Options} {k : Bool} {m m' m₀ : Machine}

/-- What is seen to be performed next names registers on the stack only, and is no native code. -/
theorem Setting.Seen.not_overreaches {S : Setting} (hS : S.Valid) {a : Activation}
    {r : Outcome (Option Activation)} (h : S.Seen (.step a m r)) : ¬ a.Overreaches m := by
  obtain ⟨hm, ⟨depth, below, f, c, hwork⟩, -⟩ := h
  rintro (hnative | ⟨fetched, hfetch, reg, hreg, hle⟩)
  · exact hnative hwork.portable
  · exact absurd ((hwork.finds hS hm hfetch).registers reg hreg) (Nat.not_lt_of_le hle)

section

variable (hhost : R.seat = .host) (hhonest : R.honest = true) {embedding : Embedding}
  (hosts : ∀ name, Script R (embedding name)) {Q : Option Activation → Machine → Prop}
  (hstop : ∀ a m, a.Overreaches m → Q (some a) m)

/-- What is stopped before it begins changes nothing. -/
theorem Machine.Bounded.heed {α β : Type} (hm : m.Limited o) {x : Action α} {moment : Machine → Moment}
    {act : Option Activation} (hmoment : (moment m).machine = m) (hact : (moment m).activation? = act)
    {f : α → Action β} (h : ¬ Q act m → m.Bounded o k ((x >>= f) m)) :
    m.Bounded o k ((LuaMachine.heed (haltAt Q) moment x >>= f) m) := by
  obtain ⟨hstops, hgoes⟩ := heed_haltAt (P := Q) (x := x) hmoment hact
  rw [Action.bind_apply]
  by_cases hQ : Q act m
  · rw [hstops hQ]
    exact .throw hm (by simp)
  · rw [hgoes hQ, ← Action.bind_apply]
    exact h hQ

include hhost hhonest hosts hstop

/-- Whatever is run keeps to the limits. -/
theorem bounded_watched (fuel : Nat) (job : Job) :
    Action.Bounded o true (watched embedding (haltAt Q) fuel job) := by
  -- whatever a call or a step has run has less fuel
  induction fuel generalizing job with
  | zero => exact fun m hm => .throw hm (by simp)
  | succ n ih =>
    intro m hm
    cases job with
    | call slot argCount wanted =>
      refine .view (.bind (.startCall ih hhost hhonest hosts hm _ _ _) fun r m₁ _ hm₁ _ => ?_)
      cases r with
      | done => exact .pure hm₁
      | pushed => exact ih _ m₁ hm₁
    | execute depth =>
      refine .view ?_
      split
      · exact .pure hm
      · exact .heed hm rfl rfl fun _ => .bind (.activate hm) fun a m₁ _ hm₁ _ => ih _ m₁ hm₁
    | proceed depth a =>
      refine .heed (Q := Q) hm rfl rfl fun hQ => ?_
      refine .bind (.step ih hhost hhonest hosts hm fun h => hQ (hstop a m h)) fun r m₁ _ hm₁ _ => ?_
      cases r with
      | some a' => exact ih _ m₁ hm₁
      | none => exact ih _ m₁ hm₁

end

/-- An errand of a verified program keeps to the limits, up to where it is stopped. -/
theorem Errand.limited_upTo (hU : IsProgram U) (x : Errand ⟨U, .host, true, true⟩) (hm : m.Sound U true)
    (hlimited : m.Limited o) (P : Machine → Prop) : (x.upTo P m).state.Limited o := by
  rw [x.upTo_eq_of_unseen hU hm fun _ hS _ _ _ h => h.not_overreaches hS]
  have hrun := bounded_watched (o := o) rfl rfl x.hosts
    (Q := fun act m => P m ∨ ∃ a, act = some a ∧ a.Overreaches m) (fun a _ h => .inr ⟨a, rfl, h⟩) x.fuel
  exact (x.isScript.bounded rfl rfl hrun m hlimited).limited

namespace Machine

theorem ComesToRest.sound (hU : IsProgram U) (h : m₀.ComesToRest ⟨U, .host, true, true⟩ m)
    (hm₀ : m₀.Sound U true) : m.Sound U true := by
  induction h with
  | start => exact hm₀
  | ran _ x hend ih => exact x.sound hU ih hend

/-- A machine that keeps to some limits does so in all later states. -/
theorem Reaches.limited (hU : IsProgram U) (h : m₀.Reaches ⟨U, .host, true, true⟩ m)
    (hm₀ : m₀.Sound U true) (hlimited : m₀.Limited o) : m.Limited o := by
  obtain ⟨m₁, x, P, hrest, rfl⟩ := h
  refine x.limited_upTo hU (hrest.sound hU hm₀) ?_ P
  induction hrest with
  | start => exact hlimited
  | ran hrest x _ ih => exact x.upTo_never _ ▸ x.limited_upTo hU (hrest.sound hU hm₀) ih fun _ => False

/-- A machine that is made keeps to the limits of its options. -/
theorem Blank.limited_create {heap : Heap} {number cache : Nat} {options : Options}
    (h : (create heap number cache options).Blank) : (create heap number cache options).Limited options where
  options := rfl
  running := .create options _
  parked := nofun
  stored c s hs := by
    rw [Heap.coroutine, h.coroutines] at hs
    cases hs
  nativeCalls := Nat.zero_le _
  resumptions := le_rfl

end Machine

/-- Whatever verified code a machine has run and runs, no strand of it, whether it runs, waits or is kept by a
coroutine, has more frames than its options allow, nor more slots, unless a new stack has more, and the free slot
is on the stack. The calls nested in one another are no more than allowed, and the resumptions no more than
these. -/
theorem limits_hold (hU : IsProgram U) {heap : Heap} {number cache : Nat} {options : Options}
    (hblank : (Machine.create heap number cache options).Blank)
    (h : (Machine.create heap number cache options).Reaches ⟨U, .host, true, true⟩ m) :
    (∀ s, m.Holds s → s.frames.size ≤ options.maxDepth ∧
      s.stack.size ≤ max Limit.basicStack options.maxStack ∧ s.top ≤ s.stack.size) ∧
      m.nativeCalls ≤ options.maxNativeCalls ∧ m.parked.length ≤ m.nativeCalls := by
  have hlimited : m.Limited options := h.limited hU (hblank.toFresh.sound U true) hblank.limited_create
  refine ⟨fun s hs => ?_, hlimited.nativeCalls, hlimited.resumptions⟩
  have hstrand : s.Limited options := by
    rcases hs with hs | ⟨c, hs⟩
    · rcases List.mem_cons.1 hs with rfl | hs
      · exact hlimited.running
      · exact hlimited.parked s hs
    · exact hlimited.stored c s hs
  exact ⟨hstrand.frames, hstrand.stack, hstrand.top⟩

/-- A machine that may have one frame and one nested call, and no slots but those of a new stack. -/
def Machine.narrow : Machine :=
  .create { caches := #[{ backend := .threaded }] } 0 0
    { maxStack := 0, maxDepth := 1, maxNativeCalls := 1, mode := .off }

theorem Machine.narrow_blank : Machine.narrow.Blank where
  toFresh := ⟨rfl, rfl, bare_fresh.caches, rfl, rfl⟩
  current := rfl
  owner := ⟨0, rfl⟩
  cells := bare_blank.cells

/-- The function that has been called on it is stopped with all that is allowed in use. -/
theorem limits_hold_narrow :
    let m := (Errand.lend.outcome .narrow).state
    m.depth = 1 ∧ m.running.stack.size = 40 ∧ m.nativeCalls = 1 ∧
      (∀ s, m.Holds s → s.frames.size ≤ 1 ∧ s.stack.size ≤ 40 ∧ s.top ≤ s.stack.size) ∧ m.parked.length ≤ 1 := by
  intro m
  have hreaches : Machine.narrow.Reaches ⟨Prototype.lender.Contains, .host, true, true⟩ m :=
    ⟨_, .lend, fun _ => False, .start, by rw [Errand.upTo_never]⟩
  have husage : m.depth = 1 ∧ m.running.stack.size = 40 ∧ m.nativeCalls = 1 := by decide +kernel
  obtain ⟨hstrands, -, hparked⟩ := limits_hold Prototype.lender_isProgram Machine.narrow_blank hreaches
  exact ⟨husage.1, husage.2.1, husage.2.2, hstrands, husage.2.2 ▸ hparked⟩

end LuaMachine
