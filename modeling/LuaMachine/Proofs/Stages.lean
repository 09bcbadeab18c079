import LuaMachine.Proofs.Arguments
import LuaMachine.Proofs.ChainRun

/-!
Where a run is. It goes from frame to frame and from step to step, and ends as it would from any of these
stages. A step that yields stops in the host function it has called, and the last frame of a coroutine hands
its results to whoever resumed it.
-/

namespace LuaMachine

open Setting (depthAfter)

/-- A stage of a run: what is still to be run, and for how many steps at most. -/
structure Stage where
  fuel : Nat
  job : Job
  machine : Machine

namespace Stage

/-- How a run ends that is at a stage. -/
def outcome (embedding : Embedding) (s : Stage) : Outcome Unit := run embedding s.fuel s.job s.machine

/-- One stage after another: the frame on top is taken up, or makes a step. -/
inductive Next (embedding : Embedding) : Stage → Stage → Prop
  | takenUp {k d : Nat} {a : Activation} {m m' : Machine} (hd : d < m.depth) (h : activate m = .ok a m') :
    Next embedding ⟨k + 1, .execute d, m⟩ ⟨k, .proceed d a, m'⟩
  | stepped {k d : Nat} {a a' : Activation} {m m' : Machine}
      (h : step embedding (run embedding k) a m = .ok (some a') m') :
    Next embedding ⟨k + 1, .proceed d a, m⟩ ⟨k, .proceed d a', m'⟩
  | left {k d : Nat} {a : Activation} {m m' : Machine}
      (h : step embedding (run embedding k) a m = .ok none m') :
    Next embedding ⟨k + 1, .proceed d a, m⟩ ⟨k, .execute d, m'⟩

/-- A run comes from one stage to another. -/
def Leads (embedding : Embedding) : Stage → Stage → Prop := Relation.ReflTransGen (Next embedding)

variable {embedding : Embedding} {s s' : Stage}

theorem Next.outcome_eq (h : Next embedding s s') : s.outcome embedding = s'.outcome embedding := by
  cases h with
  | takenUp hd h =>
    simp only [outcome, run, Action.bind_ok (Action.view_apply _ _), if_neg (Nat.not_le.2 hd), Action.bind_ok h]
  | stepped h => simp only [outcome, run, Action.bind_ok h]
  | left h => simp only [outcome, run, Action.bind_ok h]

theorem Next.fuel_eq (h : Next embedding s s') : s.fuel = s'.fuel + 1 := by
  cases h <;> rfl

theorem Next.fuel_pos (h : Next embedding s s') : 0 < s.fuel := h.fuel_eq ▸ Nat.succ_pos _

/-- A stage is followed by one stage only. -/
theorem Next.unique {s'' : Stage} (h : Next embedding s s') (h' : Next embedding s s'') : s' = s'' := by
  cases h with
  | takenUp _ h =>
    cases h' with
    | takenUp _ h' =>
      obtain ⟨rfl, rfl⟩ := EStateM.Result.ok.inj (h.symm.trans h')
      rfl
  | stepped h =>
    cases h' with
    | stepped h' =>
      obtain ⟨heq, rfl⟩ := EStateM.Result.ok.inj (h.symm.trans h')
      obtain rfl := Option.some.inj heq
      rfl
    | left h' => cases h.symm.trans h'
  | left h =>
    cases h' with
    | stepped h' => cases h.symm.trans h'
    | left h' =>
      obtain ⟨-, rfl⟩ := EStateM.Result.ok.inj (h.symm.trans h')
      rfl

theorem Leads.outcome_eq (h : Leads embedding s s') : s.outcome embedding = s'.outcome embedding := by
  induction h with
  | refl => rfl
  | tail _ hnext ih => exact ih.trans hnext.outcome_eq

/-- A run of frames of a machine that can go on. -/
structure Steady (S : Regime) (ts : List CoroutineId) (s : Stage) : Prop where
  machine : s.machine.Steady S ts
  ready : S.Ready ts s.machine s.job

section

variable {S : Regime} (hS : IsCatalog S.program) {strict : Bool} (hawake : ∀ c, ¬ S.quiet c)
  (hembedding : ∀ name, Script (S.host strict) (embedding name)) {ts : List CoroutineId}

include hS hawake hembedding

/-- Whatever is run, it is run in order. -/
theorem engines_run (fuel : Nat) : S.Engines (run embedding fuel) (run embedding fuel) := by
  have hguards : S.Guards (fun _ _ => False) fun _ _ => False :=
    ⟨fun _ _ => id, fun _ _ _ _ h => absurd (fun c _ => hawake c) h⟩
  have hengines := engines_stopAt hS hembedding hguards fuel
  rwa [stopAt_never, watched_none] at hengines

theorem Next.steady (h : Next embedding s s') (hs : s.Steady S ts) : s'.Steady S ts := by
  have hts : S.Awake ts := fun c _ => hawake c
  cases h with
  | takenUp hd h =>
    have hends := activate_ends hs.machine hd
    rw [h] at hends
    exact ⟨hends.1, hts, hends.2.2⟩
  | @stepped k _ _ _ _ _ h =>
    obtain ⟨-, j, f, c, hwork⟩ := hs.ready
    have hends := (step_paired hS (engines_run hS hawake hembedding k) hembedding hs.machine hts hwork).right
    rw [h] at hends
    exact ⟨hends.1, hts, hends.2.2 _ rfl⟩
  | @left k _ _ _ _ h =>
    obtain ⟨-, j, f, c, hwork⟩ := hs.ready
    have hends := (step_paired hS (engines_run hS hawake hembedding k) hembedding hs.machine hts hwork).right
    rw [h] at hends
    exact ⟨hends.1, trivial⟩

theorem Leads.steady (h : Leads embedding s s') (hs : s.Steady S ts) : s'.Steady S ts := by
  induction h with
  | refl => exact hs
  | tail _ hnext ih => exact hnext.steady hS hawake hembedding ih

end

end Stage

variable {S : Regime} {ts : List CoroutineId} {m m' : Machine} {d j x y z after : Nat} {a : Activation}
  {f : Frame} {c : ClosureId}

/-- What a call by `CALL` gives its results to. -/
def wantedBy (z : Nat) : Option Nat := if z = 0 then none else some (z - 1)

/-- A machine has stopped in a host function that the frame at work has called. -/
structure Activation.StoppedIn (a : Activation) (x z : Nat) (fs : List Frame) (f : Frame) (m : Machine) :
    Prop where
  called : ∃ host, m.running.frames.toList = fs ++ [{ f with pc := a.pc + 1 }, host] ∧
    host.isLua = false ∧ host.slot = a.window.base + x ∧ host.wanted = wantedBy z
  top : a.window.base + x < m.running.top

section

variable (hS : IsCatalog S.program) {run : Run} (hrun : S.Engines run run)
  {embedding : Embedding} {strict : Bool} (hembedding : ∀ name, Script (S.host strict) (embedding name))

include hS hrun hembedding

/-- A step that yields stops in the host function that a call or a tail call has called. -/
theorem Regime.AtWork.yields (hhonest : S.honest = true) (hm : m.Steady S ts) (hawake : S.Awake ts)
    (h : S.AtWork d j a m f c) (hstep : step embedding run a m = .error .yield m') :
    m'.Steady S ts ∧ m.heap.Extends m'.heap ∧ ∃ fs x y z after, m.running.frames.toList = fs ++ [f] ∧
      (a.fetch? = some ⟨.call x y z, after⟩ ∨ a.fetch? = some ⟨.tailCall x y, after⟩ ∧ z = 0) ∧
      a.StoppedIn x z fs f m' := by
  obtain ⟨fs, hfs, -⟩ := h.exists_frames hhonest
  obtain ⟨f', hf', -⟩ := h.atPc (a.pc + 1)
  cases hfetch : a.fetch? with
  | none =>
    obtain ⟨e, m₁, hfails, -⟩ := Activation.step_of_fetch_none embedding h.portable hfetch m
    cases (hfails run).symm.trans hstep
  | some fetched =>
    have hperform :=
      (perform_paired hS hrun hembedding (hm.atPc (a.pc + 1)) hawake hf' fetched.operation).right
    rw [Activation.step_of_fetch embedding run hfetch] at hstep
    cases hr : perform embedding run a.window fetched.operation (m.atPc (a.pc + 1)) with
    | ok flow m₁ =>
      rw [hr] at hstep
      cases hstep
    | error e m₁ =>
      rw [hr] at hstep hperform
      obtain ⟨rfl, rfl⟩ := EStateM.Result.error.inj hstep
      obtain ⟨hm', hkeeps, hfail⟩ := hperform.2.resolve_left (by simp [Fault.isFatal])
      obtain ⟨r, wanted, hawaits, hyield⟩ := (hfail rfl).2.2 hhonest
      obtain ⟨-, -, htop, host, hframes, hhost, hslot, hwanted⟩ := (hyield rfl).2.2 hhonest
      rw [Setting.toList_frames_atPc hfs, List.append_assoc] at hframes
      obtain ⟨op, after⟩ := fetched
      have hstopped {z : Nat} (hz : wantedBy z = wanted) : a.StoppedIn r z fs f m₁ :=
        ⟨⟨host, hframes, hhost, hslot, hwanted.trans hz.symm⟩, htop⟩
      refine ⟨hm', hkeeps.extend, ?_⟩
      cases op <;> simp only [Operation.awaits, reduceCtorEq, Option.some.injEq, Prod.mk.injEq] at hawaits
      case call x y z =>
        obtain ⟨rfl, hz⟩ := hawaits
        exact ⟨fs, x, y, z, after, hfs, .inl rfl, hstopped hz⟩
      case tailCall x y =>
        obtain ⟨rfl, hz⟩ := hawaits
        exact ⟨fs, x, y, 0, after, hfs, .inr ⟨rfl, rfl⟩, hstopped hz⟩

end

/-! Returns -/

/-- A frame that returns has the upvalues over its registers closed, then it is left. -/
theorem Activation.exists_step_ret (hfetch : a.fetch? = some ⟨.ret x y, after⟩) (embedding : Embedding)
    (run : Run) :
    ∃ closed : Machine, closed.running.frames = (m.atPc (a.pc + 1)).running.frames ∧
      closed.running.stack = m.running.stack ∧ step embedding run a m =
        (leaveFrame (a.window.base + x) (if y = 0 then m.running.top - (a.window.base + x) else y - 1) >>=
          fun _ => pure none) closed := by
  let closed := (m.atPc (a.pc + 1)).modifyBoth fun h s => h.closeCells s a.window.base
  have hrunning : closed.running = { (m.atPc (a.pc + 1)).running with
      openCells := (m.atPc (a.pc + 1)).running.openCells.filter
        fun c => !decide (a.window.base ≤ c.slot) } := Heap.openCells_closeCells ..
  refine ⟨closed, by rw [hrunning], by rw [hrunning]; rfl, ?_⟩
  have hperform : perform embedding run a.window (.ret x y) (m.atPc (a.pc + 1)) =
      (leaveFrame (a.window.base + x) (if y = 0 then m.running.top - (a.window.base + x) else y - 1) >>=
        fun _ => pure Flow.leave) closed := perform_ret ..
  rw [step_of_fetch embedding run hfetch, hperform, Action.bind_apply, Action.bind_apply]
  cases leaveFrame (a.window.base + x) _ closed <;> rfl

/-- The values that a return gives. -/
def Activation.results (a : Activation) (m : Machine) (x y : Nat) : List Value :=
  m.running.values (a.window.base + x) (if y = 0 then m.running.top - (a.window.base + x) else y - 1)

/-- A Lua function that waits for another one has got what this has returned. -/
theorem Activation.returned_to {fs : List Frame} {caller : Frame} {embedding : Embedding} {run : Run}
    {o : Option Activation} (hfs : m.running.frames.toList = fs ++ [caller] ++ [f]) (hlua : caller.isLua = true)
    (hslot : f.slot ≤ a.window.base + x) (hfetch : a.fetch? = some ⟨.ret x y, after⟩)
    (hstep : step embedding run a m = .ok o m') :
    o = none ∧ m.HandsOver m' fs caller f.slot f.wanted (a.results m x y) := by
  obtain ⟨closed, hframes, hstack, hret⟩ := a.exists_step_ret (m := m) hfetch embedding run
  rw [hret] at hstep
  obtain ⟨_, m₁, hleave, hpure⟩ := Action.bind_eq_ok.1 hstep
  obtain ⟨rfl, rfl⟩ := EStateM.Result.ok.inj hpure
  have hfs₁ : closed.running.frames.toList = fs ++ [caller] ++ [{ f with pc := a.pc + 1 }] := by
    rw [hframes]
    exact Setting.toList_frames_atPc hfs (a.pc + 1)
  have hover := leaveFrame_hasHandedOver hfs₁ hlua hslot hleave
  rw [Strand.values, hstack] at hover
  exact ⟨rfl, hover.frames, hover.results, hover.top, hstack ▸ hover.below⟩

/-- The last frame of a coroutine hands over all that it returns. -/
theorem Activation.returned_last {embedding : Embedding} {run : Run} {o : Option Activation}
    (hm : m.Steady S ts) (hts : ts ≠ []) (hfs : m.running.frames.toList = [f])
    (hfetch : a.fetch? = some ⟨.ret x y, after⟩) (hstep : step embedding run a m = .ok o m') :
    o = none ∧ m'.running.frames = #[] ∧ HoldsFrom m'.running.stack 0 (a.results m x y) ∧
      m'.running.top = (a.results m x y).length := by
  obtain ⟨closed, hframes, hstack, hret⟩ := a.exists_step_ret (m := m) hfetch embedding run
  obtain ⟨n, hn⟩ : ∃ n, n = if y = 0 then m.running.top - (a.window.base + x) else y - 1 := ⟨_, rfl⟩
  have hroot := (hm.tidy_running.grounded (hm.owner_running.2 hts)).rooted f [] hfs
  rw [hret, ← hn] at hstep
  obtain ⟨_, m₁, hleave, hpure⟩ := Action.bind_eq_ok.1 hstep
  obtain ⟨rfl, rfl⟩ := EStateM.Result.ok.inj hpure
  have hfs₀ : m.running.frames.toList = [] ++ [f] := hfs
  have hfs₁ : closed.running.frames.toList = [] ++ [{ f with pc := a.pc + 1 }] := by
    rw [hframes]
    exact Setting.toList_frames_atPc hfs₀ (a.pc + 1)
  -- what is read lies on the stack once this has grown
  obtain ⟨grown, hleave₁, hreads, hold, hnew⟩ := leaveFrame_grows hfs₁ hleave
  have hvalues : (closed.withStack grown).running.values (a.window.base + x) n = a.results m x y := by
    rw [Activation.results, ← hn]
    refine (Strand.values_of_grown hold hnew).trans ?_
    rw [Strand.values, hstack, ← Strand.values]
  have hheld : HoldsFrom (closed.withStack grown).running.stack (a.window.base + x) (a.results m x y) := by
    rw [← hvalues]
    refine Strand.holdsFrom_values fun k hk => hreads k ?_
    change k < min (f.wanted.getD n) n
    rwa [hroot.wanted, Option.getD_none, min_self]
  have hlength : n = (a.results m x y).length := by rw [← hvalues, Strand.length_values]
  rw [hlength] at hleave₁
  have hfs₂ : (closed.withStack grown).running.frames.toList = [] ++ [{ f with pc := a.pc + 1 }] := hfs₁
  obtain ⟨stack, hleft, hdelivered, -⟩ := leaveFrame_delivers hfs₂ (hroot.slot.le.trans (Nat.zero_le _)) hheld
    (hasRoom_of_leaveFrame hfs₂ hleave₁)
  obtain rfl := (EStateM.Result.ok.inj (hleave₁.symm.trans hleft)).2
  refine ⟨rfl, ?_, ?_, ?_⟩
  · refine Array.toList_eq_nil_iff.1 (((closed.withStack grown).frames_popped).trans ?_)
    rw [hfs₂]
    rfl
  · rwa [show Frame.slot _ = 0 from hroot.slot, show Frame.wanted _ = none from hroot.wanted] at hdelivered
  · change (closed.withStack grown).popped.topAfter _ _ = _
    simp only [Machine.topAfter, hroot.wanted, hroot.slot, Nat.zero_add]

end LuaMachine
