import LuaMachine.Proofs.Bystanders
import LuaMachine.Proofs.StepFrames
import LuaMachine.Proofs.Upvalues

/-!
What happens while a coroutine is suspended. Host functions and steps of other strands are run, in which it is not
resumed, and its resumer may change hands. Its frames stay as they are, and so do the values on its stack to which
nothing is assigned through upvalues.
-/

namespace LuaMachine

/-- A machine that can go on, with its open cells in order. -/
structure Machine.InOrder (U : Prototype → Prop) (m : Machine) : Prop where
  steady : ∃ ts, m.Steady ⟨U, true, fun _ => False⟩ ts
  kempt : m.Kempt true false

/-- While something is run that comes to an end, a coroutine is not resumed, and of the slots of its stack only
given ones are assigned to through upvalues. -/
structure SleepsBut {α : Type} (assigned : Nat → Prop) (embedding : Embedding) (fuel : Nat) (c : CoroutineId)
    (drive : Run → Action α) (m : Machine) : Prop where
  moments : Always embedding (fun t => ¬ t.machine.Resumes c ∧ ∀ i, t.Assigns (.coroutine c) i → assigned i)
    fuel drive m
  ends : ∀ e m', drive (run embedding fuel) m = .error e m' → e.isFatal = false
  alive : ¬ (Outcome.state (drive (run embedding fuel) m)).heap.IsDead c

/-- What may happen while a coroutine is suspended: scripts of host functions are run, frames make steps, or the
machine comes from one state in order to another one, with the coroutine as it was. -/
inductive Interlude (U : Prototype → Prop) (embedding : Embedding) (c : CoroutineId) (assigned : Nat → Prop) :
    Machine → Machine → Prop
  | script {α : Type} {x : Run → Action α} {ts : List CoroutineId} {d fuel : Nat} {m : Machine}
    (hm : m.Steady ⟨U, true, fun _ => False⟩ ts) (hx : Tame ⟨U, .host, true, true⟩ True x)
    (hsettled : Conduct.Settled ⟨U, .host, true, true⟩ ts d m) (h : SleepsBut assigned embedding fuel c x m) :
    Interlude U embedding c assigned m (Outcome.state (x (run embedding fuel) m))
  | step {ts : List CoroutineId} {d j fuel : Nat} {a : Activation} {f : Frame} {closure : ClosureId} {m : Machine}
    (hm : m.Steady ⟨U, true, fun _ => False⟩ ts)
    (hwork : Regime.AtWork ⟨U, true, fun _ => False⟩ d j a m f closure)
    (hassigns : ∀ i, a.Assigns m (.coroutine c) i → assigned i)
    (h : SleepsBut assigned embedding fuel c (fun run => LuaMachine.step embedding run a) m) :
    Interlude U embedding c assigned m (Outcome.state (LuaMachine.step embedding (run embedding fuel) a m))
  | aside {m m' : Machine} (hm' : m'.InOrder U) (hx : m.heap.Extends m'.heap)
    (hc : m'.heap.coroutine c = m.heap.coroutine c) : Interlude U embedding c assigned m m'
  | trans {m m' m'' : Machine} (h : Interlude U embedding c assigned m m')
    (h' : Interlude U embedding c assigned m' m'') : Interlude U embedding c assigned m m''

/-- A coroutine is suspended as it was, but for values in given slots of its stack. -/
structure Machine.SuspendedAs (c : CoroutineId) (s : Strand) (assigned : Nat → Prop) (m : Machine) : Prop where
  status : (m.heap.coroutine c).status = .suspended
  strand : ∃ s', (m.heap.coroutine c).strand = some s' ∧ s'.frames = s.frames ∧
    ∀ i v, ¬ assigned i → s.stack[i]? = some v → s'.stack[i]? = some v

/-- A machine goes on in order past a coroutine, which is suspended as it was, but for values in given slots. -/
structure Machine.PassesBy (U : Prototype → Prop) (c : CoroutineId) (assigned : Nat → Prop) (m m' : Machine) :
    Prop where
  inOrder : m'.InOrder U
  extend : m.heap.Extends m'.heap
  suspended : ∀ s, (m.heap.coroutine c).strand = some s → m'.SuspendedAs c s assigned

variable {U : Prototype → Prop} {embedding : Embedding} {c : CoroutineId} {assigned : Nat → Prop} {fuel i : Nat}
  {m m' : Machine} {ts : List CoroutineId} {s : Strand} {v : Value} {α : Type} {drive : Run → Action α}

/-- So is any machine that a program has come to. -/
theorem Machine.Occurs.inOrder (hU : IsCatalog U) (hm : m.Occurs ⟨U, .host, true, true⟩) : m.InOrder U :=
  ⟨hm.reachable.steady hU, hm.kempt hU⟩

/-- The stack of a suspended coroutine is that of its strand. -/
theorem Machine.slot?_suspended {S : Regime} (hm : m.Steady S ts) (hc : (m.heap.coroutine c).status = .suspended)
    (hs : (m.heap.coroutine c).strand = some s) (i : Nat) : m.slot? (.coroutine c) i = s.stack[i]? := by
  have howner := hm.owner_stored (hm.not_mem_of_status hc) hs
  rw [slot?, ← howner, hm.strand?_of_holds (.inr ⟨c, hs⟩)]
  rfl

theorem Machine.SuspendedAs.mono {assigned' : Nat → Prop} (h : m.SuspendedAs c s assigned)
    (hle : ∀ i, assigned i → assigned' i) : m.SuspendedAs c s assigned' := by
  obtain ⟨hstatus, s', hs', hframes, hslots⟩ := h
  exact ⟨hstatus, s', hs', hframes, fun i v hi => hslots i v fun h => hi (hle i h)⟩

/-- A coroutine that has been as it was stays so for another while. -/
theorem Machine.SuspendedAs.next {before : Nat → Prop} (h : m.SuspendedAs c s before)
    (hnext : ∀ s', (m.heap.coroutine c).strand = some s' → m'.SuspendedAs c s' assigned) :
    m'.SuspendedAs c s fun i => before i ∨ assigned i := by
  obtain ⟨-, s', hs', hframes, hslots⟩ := h
  obtain ⟨hstatus, s'', hs'', hframes', hslots'⟩ := hnext s' hs'
  refine ⟨hstatus, s'', hs'', hframes'.trans hframes, fun i v hi hv => ?_⟩
  exact hslots' i v (fun h => hi (.inr h)) (hslots i v (fun h => hi (.inl h)) hv)

/-- What keeps to the rules strictly keeps to them otherwise as well. -/
theorem Tame.of_strict {R : Conduct} {strictly : Prop} {x : Run → Action α} (h : Tame R True x)
    (hhost : R.seat = .host) : Tame R strictly x := by
  by_cases hstrictly : strictly
  · rwa [eq_true hstrictly]
  · exact h.script.tame hhost hstrictly

/-- What has come to an end leaves a machine in order, if its open cells are. -/
theorem Regime.Ends.inOrder {d : Nat} {good : α → Machine → Prop} {failing : Fault → Machine → Prop}
    {r : Outcome α} (h : Regime.Ends ⟨U, true, fun _ => False⟩ ts d m good failing r)
    (hk : r.state.Kempt true false) (hend : ∀ e m', r = .error e m' → e.isFatal = false) :
    r.state.InOrder U ∧ m.heap.Extends r.state.heap := by
  cases r with
  | ok a m' => exact ⟨⟨⟨ts, h.1⟩, hk⟩, h.2.1.extend⟩
  | error e m' =>
    obtain ⟨hm', hkeeps, -⟩ := h.2.resolve_left (by simp [hend e m' rfl])
    exact ⟨⟨⟨ts, hm'⟩, hk⟩, hkeeps.extend⟩

section

variable (hU : IsCatalog U) (hosts : ∀ name, Tame ⟨U, .host, true, true⟩ True (embedding name))
  (hm : m.Steady ⟨U, true, fun _ => False⟩ ts) (hc : (m.heap.coroutine c).status = .suspended)

include hU hosts hm hc

/-- A suspended coroutine is asleep in what ends in order, whoever else may be. -/
theorem SleepsBut.rests (h : SleepsBut assigned embedding fuel c drive m)
    (hends : ∀ quiet run, Regime.Engines ⟨U, true, quiet⟩ run run → Regime.Awake ⟨U, true, quiet⟩ ts →
      ∃ d good failing, Regime.Ends ⟨U, true, quiet⟩ ts d m good failing (drive run m)) :
    (m.heap.coroutine c).Rests m.heap (Outcome.state (drive (run embedding fuel) m)).heap
      ((Outcome.state (drive (run embedding fuel) m)).heap.coroutine c) := by
  have hengines := engines_stopAt (S := ⟨U, true, (· = c)⟩) hU (fun name => (hosts name).script)
    (.of_resumes c) fuel
  obtain ⟨d, good, failing, hends⟩ := hends _ _ hengines fun t ht => fun heq : t = c =>
    hm.not_mem_of_status hc (heq ▸ ht)
  rw [h.moments (stopAt (Machine.Resumes c)) fun t ht => if_neg ht.1] at hends
  have hspares : m.Spares ⟨U, true, (· = c)⟩ (Outcome.state (drive (run embedding fuel) m)) := by
    have hfatal := h.ends
    cases hr : drive (run embedding fuel) m with
    | ok a m' => exact (hr ▸ hends).2.1.toSpares
    | error e m' =>
      rw [hr] at hends
      exact (hends.2.resolve_left (by simp [hfatal e m' hr])).2.1.toSpares
  exact (hspares.quiet c rfl hc).resolve_right h.alive

/-- What ends passes by a suspended coroutine that is asleep meanwhile. -/
theorem SleepsBut.passesBy (h : SleepsBut assigned embedding fuel c drive m)
    (hends : ∀ quiet run, Regime.Engines ⟨U, true, quiet⟩ run run → Regime.Awake ⟨U, true, quiet⟩ ts →
      ∃ d good failing, Regime.Ends ⟨U, true, quiet⟩ ts d m good failing (drive run m))
    (htends : ∀ quiet place run, Custody.Minds ⟨⟨U, true, quiet⟩, place, false⟩ run →
      Regime.Awake ⟨U, true, quiet⟩ ts → (∀ o i, place o i → o = .coroutine c ∧ ¬ assigned i) →
      Custody.Tends ⟨⟨U, true, quiet⟩, place, false⟩ .all m (drive run m)) :
    m.PassesBy U c assigned (Outcome.state (drive (run embedding fuel) m)) := by
  obtain ⟨hinOrder, hextend⟩ : Machine.InOrder U (Outcome.state (drive (run embedding fuel) m)) ∧
      m.heap.Extends (Outcome.state (drive (run embedding fuel) m)).heap := by
    have hfree : ¬ Custody.Strict ⟨⟨U, true, fun _ => False⟩, fun _ _ => False, false⟩ := fun ⟨_, _, h⟩ => h
    have hminds := Custody.minds_run (C := ⟨⟨U, true, fun _ => False⟩, fun _ _ => False, false⟩) hU hfree
      (fun _ => id) rfl (fun name => (hosts name).script) fuel
    obtain ⟨d, good, failing, hends⟩ := hends _ _ hminds.engines fun _ _ => id
    exact hends.inOrder (htends _ _ _ hminds (fun _ _ => id) nofun).kempt h.ends
  obtain ⟨ts', hm'⟩ := hinOrder.steady
  obtain ⟨hstatus, hstrand⟩ := h.rests hU hosts hm hc hends
  refine ⟨hinOrder, hextend, fun s hs => ?_⟩
  rw [hs] at hstrand
  cases hs' : ((Outcome.state (drive (run embedding fuel) m)).heap.coroutine c).strand with
  | none => simp [hs'] at hstrand
  | some s' =>
    rw [hs', Option.rel_some_some] at hstrand
    refine ⟨hstatus.trans hc, s', hs', hstrand.frames, fun i v hi hv => ?_⟩
    -- a run that would be stopped at an assignment to the slot is not stopped, as there is none
    have hguards : (Custody.ofSlot ⟨U, true, (· = c)⟩ (.coroutine c) i).Guards
        (HaltsAt (Machine.Resumes c) (.coroutine c) i) :=
      Custody.guards_ofSlot ((Regime.Guards.of_resumes c).quiet · none) (.coroutine c) i
    have htends := htends _ _ _ (hguards.minds hU (Custody.hosts_ofSlot hosts (.coroutine c) i) fuel)
      (fun t ht => fun heq : t = c => hm.not_mem_of_status hc (heq ▸ ht)) fun _ _ h => ⟨h.1, h.2 ▸ hi⟩
    rw [h.moments (haltAt (HaltsAt (Machine.Resumes c) (.coroutine c) i)) fun t ht => if_neg fun hhalt =>
      hhalt.elim ht.1 fun hassign => hi (ht.2 i hassign)] at htends
    rw [← Machine.slot?_suspended hm hc hs] at hv
    rw [← Machine.slot?_suspended hm' (hstatus.trans hc) hs']
    exact htends.leaves.asleep c i v ⟨rfl, rfl⟩ rfl hc (hstatus.trans hc) hv

/-- A host function passes by a coroutine that is not resumed. -/
theorem Tame.passesBy {x : Run → Action α} {d : Nat} (hk : m.Kempt true false)
    (hx : Tame ⟨U, .host, true, true⟩ True x) (hsettled : Conduct.Settled ⟨U, .host, true, true⟩ ts d m)
    (h : SleepsBut assigned embedding fuel c x m) :
    m.PassesBy U c assigned (Outcome.state (x (run embedding fuel) m)) := by
  refine h.passesBy hU hosts hm hc (fun quiet run hrun hawake => ⟨_, _, _, (hx.script.paired hU hrun hawake
    (fun _ => id) rfl hm.requiet hsettled (.self _ m)).right⟩) fun quiet place run hminds hawake _ => ?_
  exact (hx.of_strict rfl).tends hU hminds hawake (fun _ => id) rfl hm.requiet hsettled hk (.all hk) nofun
    (Nat.zero_le _) (.inr rfl)

/-- So does a step of a frame. -/
theorem Regime.AtWork.passesBy {a : Activation} {f : Frame} {closure : ClosureId} {d j : Nat}
    (hk : m.Kempt true false) (hwork : Regime.AtWork ⟨U, true, fun _ => False⟩ d j a m f closure)
    (hassigns : ∀ i, a.Assigns m (.coroutine c) i → assigned i)
    (h : SleepsBut assigned embedding fuel c (fun run => LuaMachine.step embedding run a) m) :
    m.PassesBy U c assigned (Outcome.state (LuaMachine.step embedding (run embedding fuel) a m)) := by
  have hquiet (quiet : CoroutineId → Prop) : Regime.AtWork ⟨U, true, quiet⟩ d j a m f closure := { hwork with }
  refine h.passesBy hU hosts hm hc (fun quiet run hrun hawake => ⟨_, _, _, (step_paired hU hrun
    (fun name => (hosts name).script) hm.requiet hawake (hquiet quiet)).right⟩)
    fun quiet place run hminds hawake hplace => ?_
  refine step_tends (L := .all) hU hminds (fun name => (hosts name).of_strict rfl) hm.requiet hk (.all hk)
    (hquiet quiet) (Nat.zero_le _) hawake (fun o i ho hassign => ?_) nofun
  obtain ⟨rfl, hi⟩ := hplace o i ho
  exact hi (hassigns i hassign)

omit hm hc

/-- A suspended coroutine is as it was after an interlude, but for what was assigned to through upvalues. -/
theorem Interlude.keeps {before : Nat → Prop} (h : Interlude U embedding c assigned m m') (hm : m.InOrder U)
    (hc : m.SuspendedAs c s before) :
    m'.InOrder U ∧ m.heap.Extends m'.heap ∧ m'.SuspendedAs c s fun i => before i ∨ assigned i := by
  induction h generalizing before with
  | script hm' hx hsettled h =>
    have hpasses := hx.passesBy hU hosts hm' hc.status hm.kempt hsettled h
    exact ⟨hpasses.inOrder, hpasses.extend, hc.next hpasses.suspended⟩
  | step hm' hwork hassigns h =>
    have hpasses := hwork.passesBy hU hosts hm' hc.status hm.kempt hassigns h
    exact ⟨hpasses.inOrder, hpasses.extend, hc.next hpasses.suspended⟩
  | aside hm' hx hsame =>
    obtain ⟨hstatus, hstrand⟩ := hc
    rw [← hsame] at hstatus hstrand
    exact ⟨hm', hx, Machine.SuspendedAs.mono ⟨hstatus, hstrand⟩ fun _ => .inl⟩
  | trans _ _ ih ih' =>
    obtain ⟨hm₁, hx₁, hc₁⟩ := ih hm hc
    obtain ⟨hm₂, hx₂, hc₂⟩ := ih' hm₁ hc₁
    exact ⟨hm₂, hx₁.trans hx₂, hc₂.mono fun i h => h.elim id .inr⟩

end

end LuaMachine
