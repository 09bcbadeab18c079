import LuaMachine.Proofs.Reachable

/-!
Where coroutines are suspended. Nothing yields out of a call from native code, given that host functions
yield as they should and pass on what the calls they make throw. So a suspended coroutine is either at
its start or in a host function that one of its Lua functions has called.
-/

namespace LuaMachine

/-- An action does not yield. -/
def NeverYields {α : Type} (x : Action α) (m : Machine) : Prop := ∀ m', x m ≠ .error .yield m'

/-- No call that native code can make yields. Such code belongs to a frame, which on the strand of a
coroutine is a frame of its own. -/
structure Machine.Encloses (run : Run) (m : Machine) : Prop where
  callAt : ∀ slot argCount wanted held, m.running.Floor slot →
    NeverYields (callAt run slot argCount wanted held) m
  callHandler : ∀ held f args, NeverYields (callHandlerHolding run held f args) m
  callValue : ∀ held f args, NeverYields (callValueHolding run held f args) m
  call : ∀ f args, NeverYields (call run f args) m
  protectedCall : ∀ f args, NeverYields (protectedCall run f args) m
  iterate : ∀ w a c, m.running.Floor w.base → NeverYields (iterate run w a c) m

variable {S : Regime} {ts : List CoroutineId} {m : Machine} {d : Nat} {α : Type}

theorem Regime.Ends.neverYields {good : α → Machine → Prop} {failing : Fault → Machine → Prop}
    {x : Action α} (h : S.Ends ts d m good failing (x m)) (hfail : ∀ m', ¬ failing .yield m') :
    NeverYields x m := by
  intro m' hx
  rw [hx] at h
  exact h.2.elim (fun h => Bool.false_ne_true h.1) fun h => hfail m' h.2.2

theorem Regime.Leaks.not_yield (hhonest : S.honest = true) : ¬ S.Leaks ts .yield m :=
  fun h => Bool.false_ne_true ((h rfl).2.symm.trans hhonest)

variable {U : Prototype → Prop} (hU : IsCatalog U) {strict : Bool} {embedding : Embedding}
  (hosts : ∀ name, Script ⟨U, .host, true, strict⟩ (embedding name))

include hU

theorem Machine.Steady.encloses (hm : m.Steady ⟨U, true, fun _ => False⟩ ts)
    (hdepth : ts ≠ [] → 0 < m.depth) {run : Run}
    (hrun : Regime.Engines ⟨U, true, fun _ => False⟩ run run) : m.Encloses run := by
  have hawake : Regime.Awake ⟨U, true, fun _ => False⟩ ts := fun _ _ => id
  have hd : m.Stands ts m.depth := ⟨le_rfl, hdepth⟩
  have hleak (m' : Machine) : ¬ Regime.Leaks ⟨U, true, fun _ => False⟩ ts .yield m' :=
    Regime.Leaks.not_yield rfl
  exact {
    callAt := fun slot n wanted held hslot =>
      (callAt_paired hrun hawake hm hd hslot n wanted held).right.neverYields hleak
    callHandler := fun held f args =>
      (callHandler_paired hU hrun hawake hm hd f args held).right.neverYields hleak
    callValue := fun held f args =>
      (callValue_paired hU hrun hawake hm hd f args held).right.neverYields hleak
    call := fun f args => (call_paired hU hrun hawake hm hd f args).right.neverYields
      fun m' h => nomatch h.2.2 rfl
    protectedCall := fun f args =>
      (protectedCall_paired hU hrun hawake hm hd f args).right.neverYields hleak
    iterate := fun w a c hbase => by
      have hscript : Script ⟨U, .code w.base, true, false⟩ fun run => LuaMachine.iterate run w a c :=
        .iterate rfl a c
      have hpaired := hscript.paired hU hrun hawake (fun _ => id) rfl hm ⟨hd, hbase⟩
        (.self _ m)
      exact hpaired.right.neverYields fun m' h => nomatch ((h rfl).2 rfl).1 }

include hosts

/-- In every state that can be reached, no call from native code yields, and a coroutine that is
suspended is outside of such calls: either it has not been started, or a host function called by one of
its Lua functions is on top of its frames. -/
theorem suspended_outside_native (hm : m.Reachable ⟨U, .host, true, strict⟩) (fuel : Nat) :
    ((m.current.isSome → 0 < m.depth) → m.Encloses (run embedding fuel)) ∧
      ∀ c, (m.heap.coroutine c).status = .suspended → ∃ s, (m.heap.coroutine c).strand = some s ∧
        s.owner = .coroutine c ∧ s.boundaries = 0 ∧ (s.Unstarted ∨ s.Halted m.heap) := by
  obtain ⟨ts, hsteady⟩ := hm.steady hU
  constructor
  · intro hdepth
    have hrun := engines_stopAt (S := ⟨U, true, fun _ => False⟩) (P := fun _ => False)
      (Q := fun _ => False) hU hosts (.of_sooner (fun _ => id) fun _ => id) fuel
    rw [stopAt_never, watched_none] at hrun
    refine hsteady.encloses hU (fun hts => hdepth ?_) hrun
    rw [hsteady.current]
    cases ts with
    | nil => exact absurd rfl hts
    | cons t ts => rfl
  · intro c hc
    obtain ⟨s, hs, howner, -, hshape⟩ := hsteady.exists_strand hc
    refine ⟨s, hs, howner, ?_⟩
    rcases hshape with hunstarted | hstopped
    · exact ⟨hunstarted.boundaries, .inl hunstarted⟩
    · have hhalted := hstopped.halted rfl
      exact ⟨hhalted.boundaries, .inr hhalted⟩

/-- The function that calls its argument has a host function called that yields. -/
def Errand.pause : Errand ⟨Prototype.relay.Contains, .host, true, true⟩ where
  script := pauseApart
  isScript := .pauseApart Prototype.relay.contains_self
  embedding := pauseHost
  hosts := fun _ => .yieldValues _ rfl
  fuel := 9

/-- A machine with a coroutine that has yielded. -/
def Machine.pausing : Machine := (Errand.pause.outcome .bare).state

omit hU hosts in
theorem Machine.pausing_reachable : pausing.Reachable ⟨Prototype.relay.Contains, .host, true, true⟩ :=
  ⟨_, .pause, fun _ => False, .blank bare_blank, by rw [Errand.upTo_never, pausing]⟩

omit hU hosts in
theorem suspended_outside_native_pausing :
    Machine.pausing.Encloses (run pauseHost 9) ∧ ∃ s, (Machine.pausing.heap.coroutine ⟨0⟩).strand = some s ∧
      s.owner = .coroutine ⟨0⟩ ∧ s.Halted Machine.pausing.heap := by
  have hsuspended := suspended_outside_native Prototype.relay_isProgram.isCatalog Errand.pause.hosts
    Machine.pausing_reachable 9
  refine ⟨hsuspended.1 fun hcurrent => absurd hcurrent (by decide +kernel), ?_⟩
  obtain ⟨s, hs, howner, -, hshape⟩ := hsuspended.2 ⟨0⟩ (by decide +kernel)
  refine ⟨s, hs, howner, hshape.resolve_left fun hunstarted => ?_⟩
  -- it has frames, so it has been started
  have hframes : ((Machine.pausing.heap.coroutine ⟨0⟩).strand.map (·.frames.size)) = some 2 := by decide +kernel
  rw [hs, Option.map_some, hunstarted.frames] at hframes
  cases hframes

end LuaMachine
