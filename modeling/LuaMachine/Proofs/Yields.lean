import LuaMachine.Proofs.StepFrames
import LuaMachine.Proofs.Suspension

/-!
Where values are yielded. A step that yields has called a host function, and this has come to `yieldValues`: none
of the calls it makes yields, and neither does anything else that a frame can do.
-/

namespace LuaMachine

/-- An action comes to yield values, and does nothing after it. -/
inductive Yields (vs : List Value) : {α : Type} → Action α → Machine → Machine → Prop
  | here {α : Type} {m m' : Machine} (h : (yieldValues vs : Action α) m = .error .yield m') :
    Yields vs (yieldValues vs : Action α) m m'
  | first {α β : Type} {x : Action α} {f : α → Action β} {m m' : Machine} (h : Yields vs x m m') :
    Yields vs (x >>= f) m m'
  | next {α β : Type} {x : Action α} {f : α → Action β} {a : α} {m m₁ m' : Machine} (hx : x m = .ok a m₁)
    (h : Yields vs (f a) m₁ m') : Yields vs (x >>= f) m m'

/-- A host function that was called over given frames yields values. -/
def Machine.HostYields (embedding : Embedding) (run : Run) (fs : List Frame) (slot : Nat) (wanted : Option Nat)
    (vs : List Value) (m : Machine) : Prop :=
  ∃ g n m₁, m₁.running.frames.toList = fs ++ [hostFrame g slot n wanted] ∧
    Yields vs (hostBody embedding g run) m₁ m

variable {S : Regime} {R : Conduct} {ts : List CoroutineId} {m m' : Machine} {d j k slot n : Nat} {a : Activation}
  {f : Frame} {fs : List Frame} {c : ClosureId} {wanted : Option Nat} {vs : List Value} {α β : Type}

theorem Action.bind_eq_error {x : Action α} {f : α → Action β} {e : Fault} :
    (x >>= f) m = .error e m' ↔
      x m = .error e m' ∨ ∃ a m₁, x m = .ok a m₁ ∧ f a m₁ = .error e m' := by
  rw [Action.bind_apply]
  cases x m <;> simp

/-- The values wait in the machine for whoever has resumed the coroutine. -/
theorem Yields.apply {x : Action α} (h : Yields vs x m m') : x m = .error .yield m' ∧ m'.yielded = vs := by
  induction h with
  | @here α m m' h =>
    refine ⟨h, ?_⟩
    rw [yieldValues_apply] at h
    split at h
    · cases h
    · split at h
      · cases h
      · rw [← (EStateM.Result.error.inj h).2]
  | first _ ih => exact ⟨Action.bind_eq_error.2 (.inl ih.1), ih.2⟩
  | next hx _ ih => exact ⟨Action.bind_eq_error.2 (.inr ⟨_, _, hx, ih.1⟩), ih.2⟩

/-- What does not fail with a yield does not yield. -/
theorem Regime.Ends.ne_yield {good : α → Machine → Prop} {failing : Fault → Machine → Prop} {r : Outcome α}
    (h : S.Ends ts d m good failing r) (hfail : ∀ m', ¬ failing .yield m') : r ≠ .error .yield m' := by
  rintro rfl
  exact h.2.elim (fun h => Bool.false_ne_true h.1) fun h => hfail m' h.2.2

section

variable (hS : IsCatalog S.program) {run : Run} (hrun : S.Engines run run) (hawake : S.Awake ts)
  (hhonest : S.honest = true)

include hS hrun hawake hhonest

/-- A host function that keeps to the rules yields by `yieldValues`. -/
theorem Script.yields (hprogram : ∀ p, R.program p → S.program p) (hR : R.honest = S.honest)
    {x : Run → Action α} (h : Script R x) (hm : m.Steady S ts) (hseat : R.Settled ts d m) {frames : Array Frame}
    (hstays : S.Stays R.seat frames k m) (hx : x run m = .error .yield m') :
    ∃ vs, Yields vs (x run) m m' := by
  have hleaks (m' : Machine) : ¬ S.Leaks ts .yield m' := Regime.Leaks.not_yield hhonest
  induction h generalizing m with
  | sequence h =>
    refine absurd hx ((h.ends hS hprogram d hm hseat.seated rfl (hstays.beyond hhonest)).ne_yield ?_)
    exact fun _ hfail => Bool.false_ne_true ((hfail.2 rfl).2.symm.trans (hR.trans hhonest))
  | bind hx' hf ihx ihf =>
    rcases Action.bind_eq_error.1 hx with hfirst | ⟨a, m₁, hok, hnext⟩
    · obtain ⟨vs, hyields⟩ := ihx hm hseat hstays hfirst
      exact ⟨vs, .first hyields⟩
    · have hends := (hx'.paired hS hrun hawake hprogram hR hm hseat hstays).right
      rw [hok] at hends
      obtain ⟨hm₁, hk₁, hstays₁⟩ := hends
      obtain ⟨vs, hyields⟩ := ihf a ⟨run, m, m₁, hok⟩ hm₁ (hseat.after hk₁ hm₁) hstays₁ hnext
      exact ⟨vs, .next hok hyields⟩
  | callAt slot n wanted hslot =>
    have hfloor := hseat.seated.floor hslot
    exact absurd hx ((callAt_paired hrun hawake hm hseat.stands hfloor n wanted _).right.ne_yield hleaks)
  | callHandler f args =>
    exact absurd hx ((callHandler_paired hS hrun hawake hm hseat.stands f args _).right.ne_yield hleaks)
  | callValue f args =>
    exact absurd hx ((callValue_paired hS hrun hawake hm hseat.stands f args _).right.ne_yield hleaks)
  | protectedCall f args =>
    exact absurd hx ((protectedCall_paired hS hrun hawake hm hseat.stands f args).right.ne_yield hleaks)
  | resume c args => exact absurd hx ((resume_paired hS hrun hm c args d).right.ne_yield fun _ => id)
  | call f args hhost =>
    refine absurd hx ((call_paired hS hrun hawake hm hseat.stands f args).right.ne_yield fun _ hfail => ?_)
    exact Bool.false_ne_true ((hfail.2.2 rfl).symm.trans hhonest)
  | tryCall f args hhost hv he ihv ihe =>
    have hattempt := (call_paired hS hrun hawake hm hseat.stands f args).attempt.right
    rcases Action.bind_eq_error.1 hx with hfirst | ⟨r, m₁, hok, hnext⟩
    · exact absurd hfirst (hattempt.ne_yield hleaks)
    · rw [hok] at hattempt
      obtain ⟨hm₁, hk₁, hr⟩ := hattempt
      cases r with
      | ok vs =>
        obtain ⟨ws, hyields⟩ := ihv vs hm₁ (hseat.after hk₁ hm₁) (hstays.returns hr) hnext
        exact ⟨ws, .next hok hyields⟩
      | error e =>
        have hstays₁ := hstays.returns ⟨fun _ => hr.1, hr.2.1⟩
        obtain ⟨ws, hyields⟩ := ihe e (fun he => hR.trans (hr.2.2 he)) hm₁ (hseat.after hk₁ hm₁) hstays₁ hnext
        exact ⟨ws, .next hok hyields⟩
  | yieldValues vs _ => exact ⟨vs, .here hx⟩
  | attempt _ _ hdishonest => exact absurd (hdishonest.symm.trans (hR.trans hhonest)) Bool.false_ne_true

variable {embedding : Embedding} {strict : Bool} (hembedding : ∀ name, Script (S.host strict) (embedding name))

include hembedding

/-- A call of a host function yields where the function does. -/
theorem callHost_yields (hm : m.Steady S ts) (hpos : ts ≠ [] → 0 < m.depth) (hslot : m.running.Floor slot)
    {g : Function} (hg : ∀ c, g ≠ .lua c) (h : callHost embedding run g slot n wanted m = .error .yield m') :
    ∃ vs, m'.HostYields embedding run m.running.frames.toList slot wanted vs := by
  have hroom : Orderly (S.between slot) (makeRoom slot n) := .makeRoom le_rfl n
  have hplaced := hroom.sequence.ends_between hS m.depth hm hslot rfl
  rw [callHost_eq_makeRoom] at h
  rcases Action.bind_eq_error.1 h with hfirst | ⟨u, m₁, hok, hrest⟩
  · exact absurd hfirst (hplaced.ne_yield fun _ => (· rfl))
  rw [hok] at hplaced
  obtain ⟨hm₁, hk₁, hfs₁⟩ := hplaced
  have hdepth₁ : m₁.depth = m.depth := congrArg Array.size hfs₁
  rw [Action.bind_ok (pushFrame_apply _ _)] at hrest
  have hm₂ := hm₁.hostPushed (hdepth₁ ▸ hpos) (hk₁.floor_of_frames hfs₁ hslot) hg n wanted
  have hfs₂ := m₁.frames_pushed (hostFrame g slot n wanted)
  rw [hfs₁] at hfs₂
  generalize m₁.pushed (hostFrame g slot n wanted) = m₂ at hrest hm₂ hfs₂
  have hdepth₂ : m₂.depth = m.depth + 1 := by
    rw [Machine.depth, ← Array.length_toList, hfs₂, List.length_append, Array.length_toList]
    rfl
  have hseat : (S.host strict).Settled ts m₂.depth m₂ :=
    ⟨⟨le_rfl, fun _ => hdepth₂ ▸ Nat.succ_pos _⟩, fun hts => hdepth₂ ▸ Nat.succ_le_succ (hpos hts)⟩
  have hbody : Script (S.host strict) fun run => hostBody embedding g run := .hostBody rfl hembedding g
  rcases Action.bind_eq_error.1 hrest with hyield | ⟨n', m₃, hended, hleave⟩
  · obtain ⟨vs, hyields⟩ := hbody.yields hS hrun hawake hhonest (fun _ => id) rfl hm₂ hseat (.self _ m₂) hyield
    exact ⟨vs, g, n, m₂, hfs₂, hyields⟩
  · have hends := (hbody.paired hS hrun hawake (fun _ => id) rfl hm₂ hseat (.self _ m₂)).right
    rw [hended] at hends
    obtain ⟨hm₃, -, hstays⟩ := hends
    have hfs₃ := (congrArg Array.toList (hstays.frames hhonest)).trans hfs₂
    have hlast (hts : ts ≠ []) (hnil : m.running.frames.toList = []) : m₃.running.openCells = [] := by
      have := hpos hts
      rw [Machine.depth, ← Array.length_toList, hnil] at this
      simp at this
    exact absurd hleave ((leaveFrame_ends hS hm₃ _ _ hfs₃ hlast (Nat.zero_le _)).ne_yield fun _ => (· rfl))

/-- What is called yields where it is a host function: to enter a Lua function does not. -/
theorem started_yields (hm : m.Steady S ts) (hpos : ts ≠ [] → 0 < m.depth) (hslot : m.running.Floor slot)
    {enter : ClosureId → Option CompiledUnit → Nat → Action Unit}
    (henter : ∀ c unit n m₁, m₁.Steady S ts → m₁.running.Floor slot →
      m₁.running.frames = m.running.frames → Setting.Resolved m₁.heap (.lua c unit) →
      enter c unit n m₁ ≠ .error .yield m')
    (h : (resolveCall slot Limit.metaSteps n >>= fun r => match r with
      | (.host g, n) => callHost embedding run g slot n wanted >>= fun _ => pure CallOutcome.done
      | (.lua c unit, n) => enter c unit n >>= fun _ => pure .pushed) m = .error .yield m') :
    ∃ vs, m'.HostYields embedding run m.running.frames.toList slot wanted vs := by
  have hresolve := resolveCall_ends hS hm hslot Limit.metaSteps n m.depth
  rcases Action.bind_eq_error.1 h with hfirst | ⟨⟨target, n'⟩, m₁, hok, hrest⟩
  · exact absurd hfirst (hresolve.ne_yield fun _ => (· rfl))
  rw [hok] at hresolve
  obtain ⟨hm₁, hk₁, hfs₁, htarget, -⟩ := hresolve
  have hdepth₁ : m₁.depth = m.depth := congrArg Array.size hfs₁
  have hslot₁ := hk₁.floor_of_frames hfs₁ hslot
  cases target with
  | host g =>
    rcases Action.bind_eq_error.1 hrest with hcall | ⟨_, _, _, hpure⟩
    · rw [← hfs₁]
      exact callHost_yields hS hrun hawake hhonest hembedding hm₁ (hdepth₁ ▸ hpos) hslot₁ htarget hcall
    · cases hpure
  | lua c unit =>
    rcases Action.bind_eq_error.1 hrest with hfirst | ⟨_, _, _, hpure⟩
    · exact absurd hfirst (henter c unit n' m₁ hm₁ hslot₁ hfs₁ htarget)
    · cases hpure

theorem startCall_yields (hm : m.Steady S ts) (hpos : ts ≠ [] → 0 < m.depth) (hslot : m.running.Floor slot)
    (h : startCall embedding run slot n wanted m = .error .yield m') :
    ∃ vs, m'.HostYields embedding run m.running.frames.toList slot wanted vs := by
  refine started_yields hS hrun hawake hhonest hembedding hm hpos hslot
    (fun c unit n' m₁ hm₁ hslot₁ hfs₁ htarget => ?_) h
  have hroot (hts : ts ≠ []) (hnil : m₁.running.frames.toList = []) : slot = 0 ∧ wanted = none := by
    have := hpos hts
    rw [Machine.depth, ← hfs₁, ← Array.length_toList, hnil] at this
    simp at this
  exact (enterLua_ends hS hm₁ hslot₁ htarget.1 htarget.2 n' hroot false 0).ne_yield fun _ => (· rfl)

theorem startTailCall_yields (hm : m.Steady S ts) (hpos : ts ≠ [] → 0 < m.depth)
    (hfs : m.running.frames.toList = fs ++ [f]) (hslot : m.running.Floor slot)
    (h : startTailCall embedding run slot n m = .error .yield m') :
    ∃ vs, m'.HostYields embedding run m.running.frames.toList slot none vs :=
  started_yields hS hrun hawake hhonest hembedding hm hpos hslot
    (fun _ _ n' _ hm₁ _ hfs₁ htarget => (replaceFrame_ends hS hm₁ (hfs₁ ▸ hfs) htarget.1 htarget.2 slot n'
      (Nat.zero_le _)).ne_yield fun _ => (· rfl)) h

/-- A step that yields has called a host function, by a call or a tail call, and this yields. -/
theorem Regime.AtWork.step_yields (hm : m.Steady S ts) (h : S.AtWork d j a m f c)
    (hstep : step embedding run a m = .error .yield m') :
    ∃ fs x y z after vs, m.running.frames.toList = fs ++ [f] ∧
      (a.fetch? = some ⟨.call x y z, after⟩ ∨ a.fetch? = some ⟨.tailCall x y, after⟩ ∧ z = 0) ∧
      a.StoppedIn x z fs f m' ∧
      m'.HostYields embedding run (fs ++ [{ f with pc := a.pc + 1 }]) (a.window.base + x) (wantedBy z) vs := by
  obtain ⟨-, -, fs, x, y, z, after, hfs, hfetch, hstopped⟩ :=
    h.yields hS hrun hembedding hhonest hm hawake hstep
  obtain ⟨f', h₁, -⟩ := h.atPc (a.pc + 1)
  have hm₁ := hm.atPc (a.pc + 1)
  have hfs₁ := Setting.toList_frames_atPc hfs (a.pc + 1)
  -- the arguments are counted first, which does not yield
  have hargs {op : Operation} {after : Nat} {start : Nat → Action CallOutcome}
      (hfetch : a.fetch? = some ⟨op, after⟩) (hperform : perform embedding run a.window op =
        a.window.callArgs x y >>= fun n => CallOutcome.flow <$> start n) :
      ∃ n m₂, m₂.Steady S ts ∧ m₂.running.frames.toList = fs ++ [{ f with pc := a.pc + 1 }] ∧
        S.AtWork d j a m₂ f' c ∧ start n m₂ = .error .yield m' := by
    rw [Activation.step_of_fetch embedding run hfetch, hperform] at hstep
    split at hstep
    · cases hstep
    · next hfails =>
      obtain ⟨rfl, rfl⟩ := EStateM.Result.error.inj hstep
      rcases Action.bind_eq_error.1 hfails with hcount | ⟨n, m₂, hcount, hrest⟩
      · have hends := (h₁.script_paired hS hrun hm₁ hawake (.callArgs rfl x y) .data).right
        rw [hcount] at hends
        obtain ⟨_, _, hnone, -⟩ := ((hends.2.resolve_left (by simp [Fault.isFatal])).2.2 rfl).2.2 hhonest
        cases hnone
      · obtain ⟨hm₂, hfs₂, h₂⟩ := h₁.callArgs_ends hS hrun hm₁ hawake hhonest hcount
        rw [← bind_pure_comp] at hrest
        rcases Action.bind_eq_error.1 hrest with hstart | ⟨_, _, _, hpure⟩
        · exact ⟨n, m₂, hm₂, hfs₂ ▸ hfs₁, h₂, hstart⟩
        · cases hpure
  have hpos {m₂ : Machine} (h₂ : S.AtWork d j a m₂ f' c) (_ : ts ≠ []) : 0 < m₂.depth :=
    Nat.zero_lt_of_lt h₂.lt_depth
  rcases hfetch with hfetch | ⟨hfetch, rfl⟩
  · obtain ⟨n, m₂, hm₂, hfs₂, h₂, hstart⟩ := hargs hfetch rfl
    obtain ⟨vs, hyields⟩ := startCall_yields hS hrun hawake hhonest hembedding hm₂ (hpos h₂)
      ((h₂.floor hm₂).mono (Nat.le_add_right _ x)) hstart
    exact ⟨fs, x, y, z, after, vs, hfs, .inl hfetch, hstopped, hfs₂ ▸ hyields⟩
  · obtain ⟨n, m₂, hm₂, hfs₂, h₂, hstart⟩ := hargs hfetch rfl
    obtain ⟨vs, hyields⟩ := startTailCall_yields hS hrun hawake hhonest hembedding hm₂ (hpos h₂) hfs₂
      ((h₂.floor hm₂).mono (Nat.le_add_right _ x)) hstart
    exact ⟨fs, x, y, 0, after, vs, hfs, .inr ⟨hfetch, rfl⟩, hstopped, hfs₂ ▸ hyields⟩

end

end LuaMachine
