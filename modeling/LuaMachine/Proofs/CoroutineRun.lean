import LuaMachine.Proofs.Rousing
import LuaMachine.Proofs.Yields

/-!
What comes of a coroutine that runs. It stops in a host function that has yielded, its last frame returns, or it
fails; whoever has resumed it gets the values that were yielded or returned, or the error.
-/

namespace LuaMachine

/-- Where a coroutine stops: in some activation a frame that lies on others has called a host function, and this
has yielded. Its results go to the registers from one on, as many as the operand `count` of the call says. -/
structure Pause where
  below : List Frame
  frame : Frame
  activation : Activation
  register : Nat
  count : Nat
  machine : Machine

namespace Pause

def slot (p : Pause) : Nat := p.activation.window.base + p.register

def wanted (p : Pause) : Option Nat := wantedBy p.count

/-- The frame that waits for the results, behind the call. -/
def waiting (p : Pause) : Frame := { p.frame with pc := p.activation.pc + 1 }

/-- The call is one by `CALL`. -/
def IsCall (p : Pause) : Prop := ∃ y after, p.activation.fetch? = some ⟨.call p.register y p.count, after⟩

/-- The call is one by `TAILCALL`. -/
def IsTailCall (p : Pause) : Prop :=
  (∃ y after, p.activation.fetch? = some ⟨.tailCall p.register y, after⟩) ∧ p.count = 0

end Pause

namespace Stage

/-- The next step of a coroutine calls a host function, which yields values. -/
structure YieldsAt (embedding : Embedding) (p : Pause) (vs : List Value) (t : Stage) : Prop where
  frames : t.machine.running.frames.toList = p.below ++ [p.frame]
  fetch : p.IsCall ∨ p.IsTailCall
  step : ∃ k, t = ⟨k + 1, .proceed 0 p.activation, t.machine⟩ ∧
    LuaMachine.step embedding (run embedding k) p.activation t.machine = .error .yield p.machine ∧
    p.machine.HostYields embedding (run embedding k) (p.below ++ [p.waiting]) p.slot p.wanted vs

/-- In the next step the last frame of a coroutine returns values. -/
def ReturnsAt (embedding : Embedding) (vs : List Value) (t : Stage) : Prop :=
  ∃ k a f x y after m', t = ⟨k + 2, .proceed 0 a, t.machine⟩ ∧ t.machine.running.frames.toList = [f] ∧
    a.fetch? = some ⟨.ret x y, after⟩ ∧ step embedding (run embedding (k + 1)) a t.machine = .ok none m' ∧
    vs = a.results t.machine x y

/-- The rest of a run fails, and not by a yield. -/
def FailsAt (embedding : Embedding) (e : Fault) (t : Stage) : Prop :=
  e ≠ .yield ∧ ∃ m', t.outcome embedding = .error e m'

/-- It is settled what becomes of a coroutine that runs. -/
inductive Settles (embedding : Embedding) (t : Stage) : Prop
  | yields {p : Pause} {vs : List Value} (h : t.YieldsAt embedding p vs)
  | returns {vs : List Value} (h : t.ReturnsAt embedding vs)
  | fails {e : Fault} (h : t.FailsAt embedding e)

/-- What an engine runs is the frame on top, with its own unit. -/
def Aligned (s : Stage) : Prop :=
  ∀ d a, s.job = .proceed d a → ∃ fs f, s.machine.running.frames.toList = fs ++ [f] ∧
    ∀ u, a.engine = .threaded u → f.unit = some u

end Stage

variable {S : Regime} {ts : List CoroutineId} {m m' : Machine} {c : CoroutineId} {embedding : Embedding}
  {run : Run} {a a' : Activation} {f : Frame} {p : Pause} {s s' t : Stage} {vs : List Value} {d j x y after : Nat}
  {closure : ClosureId} {o : Option Activation} {fs : List Frame}

/-- Only a return leaves nothing of the frames. -/
theorem Activation.Reframes.returns_of_nil {fs' : List Frame} (h : a.Reframes fs f none fs') (hnil : fs' = []) :
    ∃ x y after, a.fetch? = some ⟨.ret x y, after⟩ ∧ fs = [] := by
  generalize hnone : (none : Option Activation) = o at h
  cases h with
  | stays => cases hnone
  | calls | gives => simp at hnil
  | @returns x y after hfetch => exact ⟨x, y, after, hfetch, hnil⟩

theorem Regime.AtWork.eq_of_frames {g : Frame} (hhonest : S.honest = true) (h : S.AtWork d j a m f closure)
    (hfs : m.running.frames.toList = fs ++ [g]) : f = g := by
  obtain ⟨below, hbelow, -⟩ := h.exists_frames hhonest
  exact List.singleton_inj.1 (List.append_inj' (hbelow.symm.trans hfs) rfl).2

/-! What the resumer gets -/

theorem Stage.YieldsAt.outcome_eq (h : t.YieldsAt embedding p vs) :
    t.outcome embedding = .error .yield p.machine ∧ p.machine.yielded = vs := by
  obtain ⟨-, -, k, ht, hstep, _, _, _, -, hyields⟩ := h
  refine ⟨?_, hyields.apply.2⟩
  rw [ht, Stage.outcome, LuaMachine.run, Action.bind_apply, hstep]

/-- What is left to do from a later stage on is the same. -/
theorem Stage.Leads.bind_eq {β : Type} (h : Stage.Leads embedding s t) (f : Unit → Action β) :
    (LuaMachine.run embedding s.fuel s.job >>= f) s.machine =
      (LuaMachine.run embedding t.fuel t.job >>= f) t.machine := by
  rw [Action.bind_apply, Action.bind_apply, show LuaMachine.run embedding s.fuel s.job s.machine = _ from h.outcome_eq]
  rfl

theorem Machine.yielded_resumedFrom (hm : m.Chained (c :: ts)) (resumer : Option CoroutineId)
    (status : CoroutineStatus) : (m.resumedFrom c resumer status).yielded = m.yielded := by
  obtain ⟨n, s, parked, hp, -⟩ := hm.exists_parked
  rw [resumedFrom_eq m c resumer status hp]

theorem Machine.isDead_resumedFrom (hm : m.Chained (c :: ts)) :
    (m.resumedFrom c ts.head? .dead).heap.IsDead c := by
  refine ⟨?_, ?_⟩
  · rw [(matches_resumedFrom hm ts.head? .dead).size]
    exact hm.lt_of_mem List.mem_cons_self
  · rw [coroutine_resumedFrom hm, if_pos rfl]

section

variable (hS : IsCatalog S.program) (hawake : ∀ c, ¬ S.quiet c) (hhonest : S.honest = true) {strict : Bool}
  (hembedding : ∀ name, Script (S.host strict) (embedding name)) (ht : t.Steady S (c :: ts))

include hS hawake hembedding ht

omit ht in
include hhonest in
/-- A run that yields stops in order, in the host function that was called. -/
theorem Stage.YieldsAt.stops {us : List CoroutineId} (ht : t.Steady S us) (h : t.YieldsAt embedding p vs) :
    p.machine.Steady S us ∧ t.machine.heap.Extends p.machine.heap ∧
      p.activation.StoppedIn p.register p.count p.below p.frame p.machine := by
  obtain ⟨hfs, hcall, k, heq, hstep, -⟩ := h
  obtain ⟨j, f, closure, hwork, -⟩ := ht.atWork hhonest (congrArg Stage.job heq)
  obtain ⟨hm, hextend, fs, x, y, z, after, hfs', hfetch, hstopped⟩ := hwork.yields hS
    (Stage.engines_run hS hawake hembedding k) hembedding hhonest ht.machine (fun c _ => hawake c) hstep
  obtain ⟨rfl, hf⟩ := List.append_inj' (hfs'.symm.trans hfs) rfl
  obtain rfl := List.singleton_inj.1 hf
  refine ⟨hm, hextend, ?_⟩
  -- the call is the one that was fetched
  rcases hcall with ⟨y', after', hcall⟩ | ⟨⟨y', after', hcall⟩, hcount⟩ <;>
    rcases hfetch with hfetch | ⟨hfetch, rfl⟩ <;> cases hcall.symm.trans hfetch
  · exact hstopped
  · rwa [hcount]

include hhonest in
/-- The resumer gets what was yielded, and the coroutine is suspended where it has stopped. -/
theorem Stage.YieldsAt.resumeEnds_eq (h : t.YieldsAt embedding p vs) (f : Unit → Action (List Value)) :
    ∃ m', resumeEnds c ts.head? ((LuaMachine.run embedding t.fuel t.job >>= f) t.machine) = .ok (true, vs) m' ∧
      m'.heap.coroutine c = ⟨.suspended, some p.machine.running⟩ ∧ p.machine.heap.Extends m'.heap := by
  obtain ⟨houtcome, hyielded⟩ := h.outcome_eq
  have hchained := (h.stops hS hawake hhonest hembedding ht).1.toChained
  refine ⟨(p.machine.resumedFrom c ts.head? .suspended).withoutYielded, ?_, ?_, ?_⟩
  · rw [Action.bind_apply, show LuaMachine.run embedding t.fuel t.job t.machine = _ from houtcome, ← hyielded,
      ← Machine.yielded_resumedFrom hchained ts.head? .suspended]
    rfl
  · have hget := Machine.coroutine_resumedFrom hchained .suspended c
    rwa [if_pos rfl] at hget
  · exact (Machine.matches_resumedFrom hchained ts.head? .suspended).extend

/-- The resumer gets what was returned, and the coroutine is dead. -/
theorem Stage.ReturnsAt.resumeEnds_eq (h : t.ReturnsAt embedding vs) :
    ∃ m', resumeEnds c ts.head? ((LuaMachine.run embedding t.fuel t.job >>= fun _ => gather) t.machine) =
        .ok (true, vs) m' ∧ m'.heap.IsDead c := by
  obtain ⟨k, a, f, x, y, after, m', heq, hfs, hfetch, hstep, rfl⟩ := h
  have hnext : Stage.Next embedding t ⟨k + 1, .execute 0, m'⟩ := heq ▸ .left hstep
  have hm' := (hnext.steady hS hawake hembedding ht).machine
  obtain ⟨-, hnil, hheld, htop⟩ := Activation.returned_last ht.machine (List.cons_ne_nil c ts) hfs hfetch hstep
  have hdone : LuaMachine.run embedding (k + 1) (.execute 0) m' = .ok () m' := by
    have hdepth : m'.depth ≤ 0 := (congrArg Array.size hnil).le
    rw [LuaMachine.run, Action.bind_ok (Action.view_apply _ m'), if_pos hdepth]
    rfl
  obtain ⟨stack, hgather⟩ := gather_apply hheld htop
  have hends := gather_ends hS hm' hnil
  rw [hgather] at hends
  refine ⟨_, ?_, Machine.isDead_resumedFrom hends.1.toChained⟩
  have hleads : Stage.Leads embedding t ⟨k + 1, .execute 0, m'⟩ := .single hnext
  rw [hleads.bind_eq, Action.bind_ok hdone, hgather]
  rfl

/-- The resumer gets the error, if it goes on, and the coroutine is dead. -/
theorem Stage.FailsAt.resumeEnds_eq {e : Fault} {f : Unit → Action (List Value)} {r : Bool × List Value}
    (h : t.FailsAt embedding e)
    (hr : resumeEnds c ts.head? ((LuaMachine.run embedding t.fuel t.job >>= f) t.machine) = .ok r m') :
    r = (false, [e.value]) ∧ m'.heap.IsDead c := by
  obtain ⟨hne, m₁, houtcome⟩ := h
  rw [Action.bind_apply, show LuaMachine.run embedding t.fuel t.job t.machine = _ from houtcome] at hr
  change resumeFailed c ts.head? m₁ e = _ at hr
  rw [resumeFailed_of_ne _ _ _ hne] at hr
  split at hr
  · cases hr
  · next hfatal =>
    obtain ⟨rfl, rfl⟩ := EStateM.Result.ok.inj hr
    have hends := (Stage.engines_run hS hawake hembedding t.fuel t.job _ t.machine ht.machine ht.ready).right
    rw [show LuaMachine.run embedding t.fuel t.job t.machine = _ from houtcome] at hends
    have hm₁ := (hends.2.resolve_left fun h => hfatal h.1).1
    exact ⟨rfl, Machine.isDead_resumedFrom hm₁.resetRunning.1.toChained⟩

include hhonest

omit ht in
/-- A coroutine that runs comes to a stage at which it is settled what becomes of it. -/
theorem Stage.leads_settles {n : Nat} (hn : s.fuel = n) (hs : s.Steady S (c :: ts))
    (hjob : s.job = .execute 0 ∧ 0 < s.machine.depth ∨ ∃ a, s.job = .proceed 0 a) :
    ∃ t, Stage.Leads embedding s t ∧ t.Settles embedding := by
  have hawakes : S.Awake (c :: ts) := fun c _ => hawake c
  induction n generalizing s with
  | zero =>
    obtain ⟨k, job, m⟩ := s
    obtain rfl : k = 0 := hn
    exact ⟨_, .refl, .fails (e := .outOfFuel) ⟨nofun, m, rfl⟩⟩
  | succ n ih =>
    have hlater {s' : Stage} (hnext : Stage.Next embedding s s')
        (hjob' : s'.job = .execute 0 ∧ 0 < s'.machine.depth ∨ ∃ a, s'.job = .proceed 0 a) :
        ∃ t, Stage.Leads embedding s t ∧ t.Settles embedding := by
      have hfuel : s'.fuel = n := Nat.succ.inj (hnext.fuel_eq.symm.trans hn)
      obtain ⟨t, hleads, hend⟩ := ih hfuel (hnext.steady hS hawake hembedding hs) hjob'
      exact ⟨t, hleads.head hnext, hend⟩
    obtain ⟨k, job, m⟩ := s
    obtain rfl : k = n + 1 := hn
    rcases hjob with ⟨rfl, hdepth⟩ | ⟨a, rfl⟩
    · have hactivate := activate_ends hs.machine hdepth
      cases h : activate m with
      | ok a m' => exact hlater (.takenUp hdepth h) (.inr ⟨a, rfl⟩)
      | error e m' =>
        refine ⟨_, .refl, .fails (e := e) ⟨?_, m', ?_⟩⟩
        · rintro rfl
          exact hactivate.ne_yield (fun _ => (· rfl)) h
        · rw [Stage.outcome, LuaMachine.run, Action.bind_ok (Action.view_apply _ m), if_neg (Nat.not_le.2 hdepth),
            Action.bind_apply, h]
    · obtain ⟨j, f, closure, hwork, -⟩ := hs.atWork hhonest rfl
      obtain ⟨fs, hfs, -⟩ := hwork.exists_frames hhonest
      have hrun := Stage.engines_run hS hawake hembedding n
      cases h : step embedding (LuaMachine.run embedding n) a m with
      | ok o m' =>
        cases o with
        | some a' => exact hlater (.stepped h) (.inr ⟨a', rfl⟩)
        | none =>
          by_cases hdepth : 0 < m'.depth
          · exact hlater (.left h) (.inl ⟨rfl, hdepth⟩)
          · -- only the return of the last frame leaves none
            obtain ⟨x, y, after, hfetch, hlast⟩ := (hwork.reframes hS hrun hembedding hhonest hs.machine hawakes
              hfs h).returns_of_nil (Array.toList_eq_nil_iff.2 (Array.size_eq_zero_iff.1 (Nat.le_zero.1 (Nat.not_lt.1 hdepth))))
            rw [hlast, List.nil_append] at hfs
            cases n with
            | zero =>
              refine ⟨_, .refl, .fails (e := .outOfFuel) ⟨nofun, m', ?_⟩⟩
              rw [Stage.outcome, LuaMachine.run, Action.bind_ok h]
              rfl
            | succ n => exact ⟨_, .refl, .returns ⟨n, a, f, x, y, after, m', rfl, hfs, hfetch, h, rfl⟩⟩
      | error e m' =>
        by_cases hyield : e = .yield
        · subst hyield
          obtain ⟨fs, x, y, z, after, vs, hfs, hfetch, -, hyields⟩ :=
            hwork.step_yields hS hrun hawakes hhonest hembedding hs.machine h
          refine ⟨_, .refl, .yields (p := ⟨fs, f, a, x, z, m'⟩) ⟨hfs, ?_, n, rfl, h, hyields⟩⟩
          exact hfetch.imp (fun h => ⟨y, after, h⟩) fun h => ⟨⟨y, after, h.1⟩, h.2⟩
        · refine ⟨_, .refl, .fails ⟨hyield, m', ?_⟩⟩
          rw [Stage.outcome, LuaMachine.run, Action.bind_apply, h]

end

/-! Going on behind a call -/

/-- The frame of a pause is one of a function that exists, and is run by its own unit if it has one. -/
structure Pause.Backed (U : Prototype → Prop) (h : Heap) (p : Pause) : Prop where
  closure : ∃ closure, p.frame.closure? = some closure ∧ closure.index < h.closures.size ∧
    p.activation.window.closure.proto = (h.closure closure).proto
  program : U p.activation.window.closure.proto
  base : p.activation.window.base = p.frame.base
  engine : p.activation.engine = .interpreter ∧ p.frame.unit = none ∨
    ∃ u, p.activation.engine = .threaded u ∧ p.frame.unit = some u ∧
      p.activation.window.closure.proto.IsUnit u

/-- The frame of a pause is taken up behind the call, on the engine that has made this. -/
def Pause.GoesOn (p : Pause) (m : Machine) : Prop :=
  ∃ closure, p.frame.closure? = some closure ∧
    p.activation.window.closure.proto = (m.heap.closure closure).proto ∧
    activate m = .ok ⟨⟨m.heap.closure closure, p.activation.window.base⟩, p.activation.engine,
      p.activation.pc + 1⟩ m

theorem Pause.Backed.mono {U : Prototype → Prop} {h h' : Heap} (hp : p.Backed U h) (hx : h.Extends h') :
    p.Backed U h' := by
  obtain ⟨closure, hclosure, hlt, hproto⟩ := hp.closure
  exact ⟨⟨closure, hclosure, (hx closure hlt).1, hproto.trans (hx.proto hlt).symm⟩, hp.program, hp.base, hp.engine⟩

/-- Compiled code can be entered behind a call. -/
theorem Pause.Backed.goesOn {U : Prototype → Prop} (hU : IsProgram U) (hp : p.Backed U m.heap)
    (hframes : m.running.frames.toList = p.below ++ [p.waiting]) (hcall : p.IsCall) : p.GoesOn m := by
  obtain ⟨closure, hclosure, -, hproto⟩ := hp.closure
  obtain ⟨y, after, hfetch⟩ := hcall
  have htop : m.topFrame? = some p.waiting := topFrame?_of_append hframes
  refine ⟨closure, hclosure, hproto, ?_⟩
  rw [activate_eq_takeUp htop, takeUp_apply (c := closure) htop hclosure]
  rcases hp.engine with ⟨hengine, hunit⟩ | ⟨u, hengine, hunit, hu⟩
  · rw [show p.waiting.unit = none from hunit, hengine, hp.base]
    rfl
  · obtain ⟨w, op, batch, captures, hw, hop, hoperation, hentry⟩ :=
      Activation.exists_word (a := p.activation) rfl (.inr ⟨u, hengine, hu⟩) hfetch
    obtain rfl : op = .call := by
      cases op <;> simp [Operation.ofInstruction] at hoperation ⊢
    have hlt := (hU.verified hp.program).checked.lt_of_opcode hw hop (by simp)
    have hofUnit : Engine.ofUnit u = .threaded u := by simp [Engine.ofUnit, hu.native]
    have hat : u.lowered.isEntry p.waiting.pc = true := hentry u hengine rfl hlt
    rw [show p.waiting.unit = some u from hunit]
    dsimp only
    rw [if_pos hat, hofUnit, hengine, hp.base]
    rfl

/-! Engines and units -/

theorem engine_of_step (h : step embedding run a m = .ok (some a') m') : a'.engine = a.engine := by
  obtain ⟨w, engine, pc⟩ := a
  cases engine
  all_goals
    obtain ⟨next, m₁, -, hgo⟩ := Action.bind_eq_ok.1 h
    cases next with
    | none => cases hgo
    | some next =>
      obtain ⟨heq, -⟩ := EStateM.Result.ok.inj hgo
      exact Option.some.inj heq ▸ rfl

/-- What is taken up is the frame on top, with its unit. -/
theorem engine_of_activate (h : activate m = .ok a m') :
    ∃ f, m'.topFrame? = some f ∧ a.engine = f.unit.elim .interpreter Engine.ofUnit := by
  have hstate := state_activate m
  rw [h] at hstate
  obtain rfl : m' = m := hstate
  cases htop : m'.topFrame? with
  | none =>
    rw [activate, Action.bind_ok (Action.view_apply _ m'), htop] at h
    cases h
  | some f =>
    refine ⟨f, rfl, ?_⟩
    cases hclosure : f.closure? with
    | none =>
      simp only [activate, Action.bind_apply, Action.view_apply, htop, hclosure] at h
      cases h
    | some closure =>
      rw [activate_eq_takeUp htop, takeUp_apply htop hclosure] at h
      cases hunit : f.unit with
      | none =>
        rw [hunit] at h
        obtain ⟨rfl, -⟩ := EStateM.Result.ok.inj h
        rfl
      | some u =>
        rw [hunit] at h
        dsimp only at h
        split at h
        · obtain ⟨rfl, -⟩ := EStateM.Result.ok.inj h
          rfl
        · cases h

theorem Engine.ofUnit_eq_threaded {u u' : CompiledUnit} (h : ofUnit u = .threaded u') : u = u' := by
  unfold ofUnit at h
  cases hn : u.native with
  | none =>
    rw [hn] at h
    exact Engine.threaded.inj h
  | some code =>
    rw [hn] at h
    cases h

section

variable (hS : IsCatalog S.program) (hawake : ∀ c, ¬ S.quiet c) (hhonest : S.honest = true) {strict : Bool}
  (hembedding : ∀ name, Script (S.host strict) (embedding name)) (hs : s.Steady S ts)

include hS hawake hembedding hhonest hs

theorem Stage.Next.aligned (hnext : Stage.Next embedding s s') (h : s.Aligned) : s'.Aligned := by
  cases hnext with
  | takenUp hd hactivate =>
    rintro _ _ ⟨⟩
    obtain ⟨f, htop, hengine⟩ := engine_of_activate hactivate
    obtain ⟨fs, hfs⟩ := topFrame?_eq_some.1 htop
    refine ⟨fs, f, hfs, fun u hu => ?_⟩
    cases hunit : f.unit with
    | none =>
      rw [hunit, hu] at hengine
      cases hengine
    | some u' =>
      rw [hunit, hu] at hengine
      rw [Engine.ofUnit_eq_threaded hengine.symm]
  | @stepped k d a a' m m' hstep =>
    rintro _ _ ⟨⟩
    obtain ⟨fs, f, hfs, hunit⟩ := h d a rfl
    obtain ⟨j, f', closure, hwork, -⟩ := hs.atWork hhonest rfl
    obtain rfl := hwork.eq_of_frames hhonest hfs
    have hreframes := hwork.reframes hS (Stage.engines_run hS hawake hembedding k) hembedding hhonest hs.machine
      (fun c _ => hawake c) hfs hstep
    generalize m'.running.frames.toList = frames at hreframes ⊢
    cases hreframes
    exact ⟨fs, _, rfl, fun u hu => hunit u ((engine_of_step hstep).symm.trans hu)⟩
  | left => nofun

theorem Stage.Leads.aligned (hleads : Stage.Leads embedding s t) (h : s.Aligned) : t.Aligned := by
  induction hleads with
  | refl => exact h
  | tail hleads hnext ih =>
    exact hnext.aligned hS hawake hhonest hembedding (Stage.Leads.steady hS hawake hembedding hleads hs) ih

/-- Where a run yields, its frame is one of a function that exists. -/
theorem Stage.YieldsAt.backed (haligned : s.Aligned) (h : s.YieldsAt embedding p vs) :
    p.Backed S.program p.machine.heap := by
  obtain ⟨-, hextend, -⟩ := h.stops hS hawake hhonest hembedding hs
  obtain ⟨hfs, -, k, heq, -⟩ := h
  obtain ⟨j, f, closure, hwork, -⟩ := hs.atWork hhonest (congrArg Stage.job heq)
  obtain rfl := hwork.eq_of_frames hhonest hfs
  have hlt := hwork.lt_closures hs.machine
  have hbacked : p.Backed S.program s.machine.heap := by
    refine ⟨⟨closure, hwork.closure, hlt, hwork.proto⟩, ?_, hwork.base, ?_⟩
    · rw [hwork.proto]
      exact (hs.machine.closures _ (Heap.closure_mem hlt)).program
    · obtain ⟨fs, g, hg, hunit⟩ := haligned 0 p.activation (congrArg Stage.job heq)
      obtain rfl := hwork.eq_of_frames hhonest hg
      rcases hwork.engine with hinterpreter | ⟨u, hthreaded, hu⟩
      · refine .inl ⟨hinterpreter, ?_⟩
        cases hnone : p.frame.unit with
        | none => rfl
        | some u => cases hinterpreter.symm.trans (hwork.unit u hnone)
      · exact .inr ⟨u, hthreaded, hunit u hthreaded, hwork.proto ▸ hu⟩
  exact hbacked.mono hextend

end

end LuaMachine
