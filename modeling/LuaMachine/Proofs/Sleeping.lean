import LuaMachine.Proofs.StepFrames

/-!
Coroutines that sleep. Whatever is run in which a suspended coroutine is not resumed leaves its frames as
they are. When it is resumed it goes on with the frame that had called the host function in which it stopped.
-/

namespace LuaMachine

/-- Something is run that leaves a suspended coroutine alone, with a strand of some kind, unless it resumes it. -/
structure KeepsAsleep (embedding : Embedding) (fuel : Nat) (c : CoroutineId) (I : Strand → Prop) {α : Type}
    (drive : Run → Action α) (m : Machine) : Prop extends LastsAsleep embedding fuel c drive m where
  strand : ∀ r : Outcome α, drive (watched embedding (stopAt (Machine.Resumes c)) fuel) m = r →
    (∀ e m', r = .error e m' → e.isFatal = false) → (r.state.heap.coroutine c).status = .suspended →
      ∃ s, (r.state.heap.coroutine c).strand = some s ∧ I s

/-- So does everything that can be run. -/
structure Machine.Undisturbed (S : Regime) (strict : Bool) (embedding : Embedding) (fuel : Nat)
    (c : CoroutineId) (I : Strand → Prop) (m : Machine) : Prop where
  jobs : ∀ ts job, m.Steady S ts → Regime.Ready ⟨S.program, S.honest, (· = c)⟩ ts m job →
    KeepsAsleep embedding fuel c I (· job) m
  scripts : ∀ ts d {α : Type} (x : Run → Action α), m.Steady S ts →
    Tame ⟨S.program, .host, S.honest, strict⟩ True x →
    Conduct.Settled ⟨S.program, .host, S.honest, strict⟩ ts d m → KeepsAsleep embedding fuel c I x m

/-- What a resumption makes of the end of its coroutine. -/
def resumeEnds (c : CoroutineId) (resumer : Option CoroutineId) :
    Outcome (List Value) → Outcome (Bool × List Value)
  | .ok vs m' => .ok (true, vs) (m'.resumedFrom c resumer .dead)
  | .error e m' => resumeFailed c resumer m' e

variable {ts : List CoroutineId} {m m' : Machine} {c : CoroutineId} {I : Strand → Prop} {s : Strand}
  {embedding : Embedding} {fuel n slot : Nat} {args : List Value}

theorem LastsAsleep.keeps {α : Type} {drive : Run → Action α} (h : LastsAsleep embedding fuel c drive m)
    (hs : (m.heap.coroutine c).strand = some s)
    (hrests : ∀ s' h h', s.Rests h h' s' → I s') : KeepsAsleep embedding fuel c I drive m where
  toLastsAsleep := h
  strand r hr hend hc := by
    have hstrand := (h.rests r hr hend hc).strand
    rw [hs] at hstrand
    cases hs' : (r.state.heap.coroutine c).strand with
    | none => simp [hs'] at hstrand
    | some s' =>
      rw [hs', Option.rel_some_some] at hstrand
      exact ⟨s', rfl, hrests s' _ _ hstrand⟩

theorem Machine.undisturbed {U : Prototype → Prop} (hU : IsCatalog U) {honest strict : Bool}
    (hosts : ∀ name, Tame ⟨U, .host, honest, strict⟩ True (embedding name)) (hk : m.Kempt honest false)
    (hc : (m.heap.coroutine c).status = .suspended) (hs : (m.heap.coroutine c).strand = some s)
    (hrests : ∀ s' h h', s.Rests h h' s' → I s') :
    m.Undisturbed ⟨U, honest, fun _ => False⟩ strict embedding fuel c I where
  jobs _ _ hm hready := (lastsAsleep_job hU hosts hk hc hm hready).keeps hs hrests
  scripts _ _ _ _ hm hx hsettled := (lastsAsleep_script hU hosts hk hc hm hx hsettled).keeps hs hrests

/-! Waking -/

/-- A coroutine goes on once the arguments are in place, until its frames are gone. -/
theorem resume_of_frames (run : Run) (args : List Value) (hc : (m.heap.coroutine c).status = .suspended)
    (hnative : m.nativeCalls < m.options.maxNativeCalls)
    (hframes : (m.resumed c).running.frames ≠ #[]) :
    resume run c args m =
      resumeEnds c m.current ((wake args >>= fun _ => run (.execute 0) >>= fun _ => gather) (m.resumed c)) := by
  rw [resume_apply, hc]
  dsimp only
  rw [if_neg (Nat.not_le.2 hnative), resumeSuspended_apply, runCoroutine_apply, if_neg (by simpa using hframes),
    continueCoroutine_eq]
  cases (wake args >>= fun _ => run (.execute 0) >>= fun _ => gather) (m.resumed c) <;> rfl

/-- A coroutine that is resumed after it has stopped in a host function goes on with the frame that called
it, which gets the arguments, unless the stack overflows. Calls that are under way stay so. -/
theorem wake_goesOn {U : Prototype → Prop} (hU : IsCatalog U) (hm : m.Steady ⟨U, true, fun _ => False⟩ ts)
    (hk : m.Kempt true false) (hc : (m.heap.coroutine c).status = .suspended)
    (hframes : (m.resumed c).running.frames ≠ #[]) (args : List Value) :
    ∃ fs caller host, (m.resumed c).running.frames.toList = fs ++ [caller] ++ [host] ∧
      host.isLua = false ∧ host.slot < (m.resumed c).running.top ∧
      ((∃ m', wake args (m.resumed c) = .ok () m' ∧
          (m.resumed c).HandsOver m' fs caller host.slot host.wanted args ∧
          m'.Steady ⟨U, true, fun _ => False⟩ (c :: ts) ∧ m'.Kempt true false ∧
          ∀ n slot, n < (m.resumed c).depth → (m.resumed c).running.Serves n slot →
            SameBelow slot (m.resumed c).running.stack m'.running.stack ∧ m'.running.Serves n slot) ∨
        Outcome.Overflows (wake args (m.resumed c))) := by
  have hresumed := hm.resumed hc
  have hkempt := hk.resumed hm hc
  have hhalted := ((hm.shape_resumed hc).resolve_left fun h => hframes h.frames).halted rfl
  generalize m.resumed c = m₁ at hresumed hkempt hhalted ⊢
  obtain ⟨fs, caller, host, hfs, hcalled, hslot⟩ := hhalted.frames
  have happend : m₁.running.frames.toList = fs ++ [caller] ++ [host] := by
    rw [hfs, List.append_assoc]
    rfl
  obtain ⟨c, w, hclosure, -⟩ := hcalled.caller
  have hlua := Frame.isLua_of_closure? hclosure
  have hdepth : m₁.depth = (fs ++ [caller]).length + 1 := by
    rw [Machine.depth, ← Array.length_toList, happend, List.length_append, List.length_singleton]
  have hsize : 2 ≤ m₁.running.frames.size := by
    change 2 ≤ m₁.depth
    rw [hdepth, List.length_append, List.length_singleton]
    omega
  refine ⟨fs, caller, host, happend, hcalled.isHost, hslot,
    (wake_handsOver happend hlua hslot.le args).imp_left ?_⟩
  rintro ⟨m', hwake, hover⟩
  let C : Custody := ⟨⟨U, true, fun _ => False⟩, fun _ _ => False, false⟩
  have htends (n slot : Nat) (hn : n < m₁.depth) (hserves : m₁.running.Serves n slot) :
      C.Tends ⟨n, slot, m₁.running.openCells⟩ m₁ (wake args m₁) :=
    wake_tends hU hresumed hkempt (.of_serves hserves rfl) ⟨hsize, fun _ => hhalted⟩ hn args
  have hends := wake_ends hU hresumed hsize args (Nat.zero_lt_of_lt hsize)
  rw [hwake] at hends
  refine ⟨m', hwake, hover, hends.1, ?_, fun n slot hn hserves => ⟨hover.below.mono ?_, ?_⟩⟩
  · have hall := htends 0 0 (Nat.zero_lt_of_lt hsize) m₁.running.serves_zero
    rw [hwake] at hall
    exact hall.kempt
  · refine (hserves.frames host ?_).slot
    rw [happend, List.drop_append_of_le_length (by omega)]
    exact List.mem_append_right _ (List.mem_singleton_self host)
  · have hserved := htends n slot hn hserves
    rw [hwake] at hserved
    exact hserved.leased_ok.serves

end LuaMachine
