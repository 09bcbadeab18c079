import LuaMachine.Proofs.Reachable

/-!
What a resumption leaves alone. The resumer goes on where it was, and so do all who wait for it;
suspended coroutines that are not resumed meanwhile stay as they are. Only slots with open upvalues may
be written.
-/

namespace LuaMachine

/-- A machine after a resumption: the running strand and those that wait are as they were, but for
slots with open upvalues. -/
structure Machine.Returned (m m' : Machine) : Prop where
  running : m.running.Rests m.heap m'.heap m'.running
  parked : Strand.AllRest m.heap m'.heap m.parked m'.parked
  current : m'.current = m.current
  nativeCalls : m'.nativeCalls = m.nativeCalls

/-- A coroutine is being resumed. -/
def Machine.Resumes (u : CoroutineId) (m : Machine) : Prop :=
  (m.heap.coroutine u).status = .running ∨ (m.heap.coroutine u).status = .normal

/-- While something is run, a coroutine is not resumed: it is not at any moment, nor does it fail
before it comes to one. -/
structure Sleeps {α : Type} (embedding : Embedding) (fuel : Nat) (u : CoroutineId)
    (drive : Run → Action α) (m : Machine) : Prop where
  moments : Always embedding (fun t => ¬ t.machine.Resumes u) fuel drive m
  alive : ¬ (Outcome.state (drive (run embedding fuel) m)).heap.IsDead u

variable {ts : List CoroutineId} {m m' : Machine} {U : Prototype → Prop} {honest strict : Bool}
  {quiet quiet' : CoroutineId → Prop}

/-- Which coroutines are not to be resumed makes no difference to how a machine is. -/
theorem Machine.Steady.requiet (hm : m.Steady ⟨U, honest, quiet⟩ ts) :
    m.Steady ⟨U, honest, quiet'⟩ ts where
  toChained := hm.toChained
  owned := hm.owned
  tidy := hm.tidy
  stored c s hc hs := (hm.stored c s hc hs).imp_right fun h hst =>
    (h hst).imp_right fun h => ⟨h.frames, h.halted⟩
  closures := hm.closures
  caches := hm.caches

/-- A coroutine that is not to be resumed is being resumed only where a run is stopped. -/
theorem Regime.Guards.of_resumes (u : CoroutineId) :
    Regime.Guards ⟨U, honest, (· = u)⟩ (fun _ => Machine.Resumes u) fun _ => Machine.Resumes u where
  sooner _ _ := id
  quiet ts _ m hm hawake := by
    simp only [Regime.Awake, not_forall, not_not] at hawake
    obtain ⟨t, ht, rfl⟩ := hawake
    exact (hm.status_of_mem ht).imp (by simp +contextual) (by simp +contextual)

section

variable (hU : IsCatalog U) {embedding : Embedding}
  (hosts : ∀ name, Script ⟨U, .host, honest, strict⟩ (embedding name))

include hU hosts

/-- A suspended coroutine that is not resumed stays as it is. -/
theorem resume_rests (hm : m.Steady ⟨U, honest, quiet⟩ ts) {c u : CoroutineId} {args : List Value}
    {fuel : Nat} {r : Bool × List Value} (hr : resume (run embedding fuel) c args m = .ok r m')
    (hu : (m.heap.coroutine u).status = .suspended)
    (hsleeps : Sleeps embedding fuel u (fun run => resume run c args) m) :
    (m.heap.coroutine u).Rests m.heap m'.heap (m'.heap.coroutine u) := by
  have hrun := engines_stopAt (S := ⟨U, honest, (· = u)⟩) hU hosts (.of_resumes u) fuel
  have hends := (resume_paired hU hrun hm.requiet c args 0).left
  have hsame := hsleeps.moments (stopAt (Machine.Resumes u)) fun t ht => if_neg ht
  rw [hsame, hr] at hends
  have halive := hsleeps.alive
  rw [hr] at halive
  exact (hends.2.1.quiet u rfl hu).resolve_right halive

/-- A resumption that comes to an end leaves its resumer as it was, and all other coroutines that are
not resumed meanwhile; what does not come to an end is no resumption any more. One that is refused
changes nothing at all. -/
theorem resume_disturbs_nothing (hm : m.Reachable ⟨U, .host, honest, strict⟩) (c : CoroutineId)
    (args : List Value) (fuel : Nat) :
    (match resume (run embedding fuel) c args m with
      | .ok _ m' => m.Returned m' ∧ ∀ u ≠ c, (m.heap.coroutine u).status = .suspended →
          Sleeps embedding fuel u (fun run => resume run c args) m →
            (m.heap.coroutine u).Rests m.heap m'.heap (m'.heap.coroutine u)
      | .error e _ => e.isFatal = true) ∧
    ((m.heap.coroutine c).status ≠ .suspended ∨ m.options.maxNativeCalls ≤ m.nativeCalls →
      ∃ vs, resume (run embedding fuel) c args m = .ok (false, vs) m) := by
  obtain ⟨ts, hsteady⟩ := hm.steady hU
  constructor
  · have hrun := engines_stopAt (S := ⟨U, honest, fun _ => False⟩) (P := fun _ => False)
      (Q := fun _ => False) hU hosts (.of_sooner (fun _ => id) fun _ => id) fuel
    have hends := (resume_paired hU hrun hsteady c args 0).left
    rw [stopAt_never, watched_none] at hends
    cases hr : resume (run embedding fuel) c args m with
    | ok r m' =>
      rw [hr] at hends
      obtain ⟨hsteady', hkeeps, hrests⟩ := hends
      exact ⟨⟨hrests, hkeeps.parked, hsteady'.current.trans hsteady.current.symm, hkeeps.nativeCalls⟩,
        fun u _ hu => resume_rests hU hosts hsteady hr hu⟩
    | error e m' =>
      rw [hr] at hends
      exact (hends.2.resolve_right fun h => h.2.2).1
  · intro hrefused
    rw [resume_apply]
    cases hc : (m.heap.coroutine c).status with
    | suspended =>
      dsimp only
      rw [if_pos (hrefused.resolve_left fun h => h hc)]
      exact ⟨_, rfl⟩
    | _ => exact ⟨_, rfl⟩

end

theorem resume_disturbs_nothing_leap :
    let resumption c := resume (run (fun _ _ => pure 0) 9) c [] Errand.machine
    (∃ vs m', resumption ⟨0⟩ = .ok (true, vs) m' ∧ Errand.machine.Returned m') ∧
      ∃ vs, resumption ⟨1⟩ = .ok (false, vs) Errand.machine := by
  intro resumption
  have hundisturbed := fun c => resume_disturbs_nothing Prototype.leap_coherent.isCatalog
    Errand.leap.hosts Errand.machine_reachable c [] 9
  refine ⟨?_, (hundisturbed ⟨1⟩).2 (.inl (by decide +kernel))⟩
  have hended : (match resumption ⟨0⟩ with
    | .ok r _ => r.1
    | .error _ _ => false) = true := by decide +kernel
  have hreturned : match resumption ⟨0⟩ with
    | .ok _ m' => Errand.machine.Returned m' ∧ _
    | .error e _ => e.isFatal = true := (hundisturbed ⟨0⟩).1
  cases hr : resumption ⟨0⟩ with
  | ok r m' =>
    rw [hr] at hended hreturned
    obtain ⟨ok, vs⟩ := r
    obtain rfl : ok = true := hended
    exact ⟨vs, m', rfl, hreturned.1⟩
  | error e m' =>
    rw [hr] at hended
    cases hended

end LuaMachine
