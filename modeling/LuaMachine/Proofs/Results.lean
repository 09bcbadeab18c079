import LuaMachine.Proofs.Sleeping

/-!
Results of calls. A function that was called by `CALL` hands over its results to the frame that called it,
however the call went on: in frames of its own, in place of frames that were tail called, or after its coroutine
has yielded. The caller has as many of them as it wants, and what lies below them is as it was.
-/

namespace LuaMachine

/-- A call is under way on a strand. The frame that made it waits below that of the called function, or of one
that was called in its place, and all from there on lies above the slot of the function. -/
structure Strand.Awaits (fs : List Frame) (caller : Frame) (slot : Nat) (wanted : Option Nat) (s : Strand) :
    Prop where
  lua : caller.isLua = true
  callee : s.Bears (fs ++ [caller]) fun g => g.slot = slot ∧ g.wanted = wanted
  serves : s.Serves (fs.length + 1) slot

/-- What a host function gives that says how many results it has: the last values in its frame, no more than
there are. -/
def Machine.given (m : Machine) (slot n : Nat) : List Value :=
  m.running.values (m.running.top - min n (m.running.top - (slot + 1))) (min n (m.running.top - (slot + 1)))

/-- What `CALL` does before results are handed over. A Lua function is entered; a host function is run, and says
how many results it has. -/
def beginCall (embedding : Embedding) (run : Run) (w : Window) (x y z : Nat) : Action (Option Nat) := do
  let n ← w.callArgs x y
  match ← resolveCall (w.base + x) Limit.metaSteps n with
  | (.host f, n) =>
    let n ← runHost embedding run f (w.base + x) n (wantedBy z)
    pure (some n)
  | (.lua c unit, n) =>
    enterLua c unit (w.base + x) n (wantedBy z) false
    pure none

variable {S : Regime} {ts : List CoroutineId} {m m' : Machine} {d j n x y z after slot fuel : Nat}
  {a : Activation} {f caller : Frame} {fs : List Frame} {c : ClosureId} {wanted : Option Nat}
  {embedding : Embedding} {s s' : Stage}

/-! Host functions -/

theorem beginCall_eq_some {run : Run} {w : Window} (h : beginCall embedding run w x y z m = .ok (some n) m') :
    ∃ k m₁ f k' m₂, w.callArgs x y m = .ok k m₁ ∧
      resolveCall (w.base + x) Limit.metaSteps k m₁ = .ok (.host f, k') m₂ ∧
      runHost embedding run f (w.base + x) k' (wantedBy z) m₂ = .ok n m' := by
  obtain ⟨k, m₁, hargs, h⟩ := Action.bind_eq_ok.1 h
  obtain ⟨⟨target, k'⟩, m₂, hresolve, h⟩ := Action.bind_eq_ok.1 h
  cases target with
  | host f =>
    obtain ⟨n', m₃, hrun, h⟩ := Action.bind_eq_ok.1 h
    obtain ⟨heq, rfl⟩ := EStateM.Result.ok.inj h
    obtain rfl := Option.some.inj heq
    exact ⟨k, m₁, f, k', m₂, hargs, hresolve, hrun⟩
  | lua c unit =>
    obtain ⟨_, m₃, -, h⟩ := Action.bind_eq_ok.1 h
    cases h

/-- A call that is done was one of a host function, whose results were handed over. -/
theorem beginCall_of_startCall {run : Run} {w : Window} {m₁ : Machine} (hargs : w.callArgs x y m = .ok n m₁)
    (h : startCall embedding run (w.base + x) n (wantedBy z) m₁ = .ok .done m') :
    ∃ k m₂, beginCall embedding run w x y z m = .ok (some k) m₂ ∧ leaveHost (w.base + x) k m₂ = .ok () m' := by
  obtain ⟨⟨target, n'⟩, m₂, hresolve, h⟩ := Action.bind_eq_ok.1 h
  cases target with
  | host f =>
    obtain ⟨_, m₃, hcall, h⟩ := Action.bind_eq_ok.1 h
    obtain ⟨-, rfl⟩ := EStateM.Result.ok.inj h
    rw [callHost_eq_runHost] at hcall
    obtain ⟨k, m₄, hrun, hleave⟩ := Action.bind_eq_ok.1 hcall
    refine ⟨k, m₄, Action.bind_eq_ok.2 ⟨n, m₁, hargs, ?_⟩, hleave⟩
    exact Action.bind_eq_ok.2 ⟨_, m₂, hresolve, Action.bind_eq_ok.2 ⟨k, m₄, hrun, rfl⟩⟩
  | lua c unit =>
    obtain ⟨_, m₃, -, h⟩ := Action.bind_eq_ok.1 h
    cases h

/-- The frame of a host function that has come to its end lies on that of the function that called it. -/
theorem Regime.AtWork.beginCall_frames {run : Run} (hS : IsCatalog S.program) (hrun : S.Engines run run)
    {strict : Bool} (hembedding : ∀ name, Script (S.host strict) (embedding name)) (hhonest : S.honest = true)
    (hm : m.Steady S ts) (hawake : S.Awake ts) (h : S.AtWork d j a m f c)
    (hbegin : beginCall embedding run a.window x y z m = .ok (some n) m') : ∃ host,
      m'.running.frames.toList = m.running.frames.toList ++ [host] ∧ host.slot = a.window.base + x ∧
        host.wanted = wantedBy z ∧ a.window.base + x < m'.running.top := by
  obtain ⟨k, m₁, f', k', m₂, hargs, hresolve, hhost⟩ := beginCall_eq_some hbegin
  obtain ⟨hm₁, hfs₁, h₁⟩ := h.callArgs_ends hS hrun hm hawake hhonest hargs
  have hslot := (h₁.floor hm₁).mono (Nat.le_add_right _ x)
  have hresolved := resolveCall_ends hS hm₁ hslot Limit.metaSteps k m₁.depth
  rw [hresolve] at hresolved
  obtain ⟨hm₂, hk₂, hfs₂, htarget, -⟩ := hresolved
  have hdepth₂ : m₂.depth = m₁.depth := congrArg Array.size hfs₂
  have hran := (runHost_paired hS hrun hembedding hm₂ hawake
    (fun _ => hdepth₂ ▸ Nat.zero_lt_of_lt h₁.lt_depth) (hk₂.floor_of_frames hfs₂ hslot) htarget k'
    (wantedBy z)).right
  rw [hhost] at hran
  obtain ⟨hfs', hbeyond⟩ := hran.2.2.2 hhonest
  exact ⟨_, by rw [hfs', hfs₂, hfs₁], rfl, rfl, hbeyond.top⟩

/-- The frame that has called a host function has got what this has given. -/
theorem Regime.AtWork.host_handsOver {run : Run} (hS : IsCatalog S.program) (hrun : S.Engines run run)
    {strict : Bool} (hembedding : ∀ name, Script (S.host strict) (embedding name)) (hhonest : S.honest = true)
    (hm : m.Steady S ts) (hawake : S.Awake ts) (h : S.AtWork d j a m f c)
    (hfs : m.running.frames.toList = fs ++ [f]) (hfetch : a.fetch? = some ⟨.call x y z, after⟩)
    {a' : Activation} (hstep : step embedding run a m = .ok (some a') m') :
    a' = { a with pc := after } ∧ ∃ n m₁,
      beginCall embedding run a.window x y z (m.atPc (a.pc + 1)) = .ok (some n) m₁ ∧
      m₁.HandsOver m' fs { f with pc := a.pc + 1 } (a.window.base + x) (wantedBy z)
        (m₁.given (a.window.base + x) n) := by
  obtain ⟨f₁, h₁, -⟩ := h.atPc (a.pc + 1)
  rw [Activation.step_of_fetch embedding run hfetch] at hstep
  cases hperform : perform embedding run a.window (.call x y z) (m.atPc (a.pc + 1)) with
  | error e m₁ =>
    rw [hperform] at hstep
    cases hstep
  | ok flow m₁ =>
    rw [hperform] at hstep
    obtain ⟨htarget, rfl⟩ := EStateM.Result.ok.inj hstep
    obtain ⟨k, m₂, o, hargs, hstart, rfl⟩ := perform_call_eq_ok hperform
    cases o with
    | pushed => cases htarget
    | done =>
      obtain ⟨n, m₃, hbegin, hleave⟩ := beginCall_of_startCall hargs hstart
      obtain ⟨host, hfs', hslot, hwanted, htop⟩ := h₁.beginCall_frames hS hrun hembedding hhonest
        (hm.atPc (a.pc + 1)) hawake hbegin
      rw [Setting.toList_frames_atPc hfs] at hfs'
      refine ⟨(Option.some.inj htarget).symm, n, m₃, hbegin, ?_⟩
      have hleft : leaveFrame (m₃.running.top - min n (m₃.running.top - (a.window.base + x + 1)))
          (min n (m₃.running.top - (a.window.base + x + 1))) m₃ = .ok () m₁ := hleave
      have hover := leaveFrame_hasHandedOver hfs' (Frame.isLua_of_closure? h.closure) (by omega) hleft
      rwa [hslot, hwanted] at hover

/-! Calls under way -/

/-- The function that was called returns from one stage to the next, and its caller gets the results. -/
def Stage.HandsOver (fs : List Frame) (caller : Frame) (slot : Nat) (wanted : Option Nat) (s s' : Stage) : Prop :=
  ∃ d a x y after, s.job = .proceed d a ∧ a.fetch? = some ⟨.ret x y, after⟩ ∧
    s.machine.HandsOver s'.machine fs caller slot wanted (a.results s.machine x y)

namespace Strand.Awaits

theorem placeless (slot : Nat) (wanted : Option Nat) :
    Frame.Placeless fun g => g.slot = slot ∧ g.wanted = wanted := fun _ _ h => h

theorem lt_depth (h : m.running.Awaits fs caller slot wanted) : fs.length + 1 < m.depth := by
  have hlt := h.callee.lt_size
  rwa [List.length_append, List.length_singleton] at hlt

theorem rests {s s' : Strand} {h h' : Heap} (haw : s.Awaits fs caller slot wanted) (hr : s.Rests h h' s') :
    s'.Awaits fs caller slot wanted :=
  ⟨haw.lua, haw.callee.rests hr, haw.serves.rests hr⟩

/-- The function that was called is on top. -/
theorem atop (haw : m.running.Awaits fs caller slot wanted)
    (hfs : m.running.frames.toList = fs ++ [caller] ++ [f]) :
    f.slot = slot ∧ f.wanted = wanted ∧ f.slot ≤ f.base := by
  obtain ⟨g, rest, hg, hslot, hwanted⟩ := haw.callee
  obtain ⟨heq, rfl⟩ := List.cons.inj (List.append_cancel_left (hfs.symm.trans hg))
  obtain rfl := heq
  refine ⟨hslot, hwanted, hslot ▸ (haw.serves.frames f ?_).base⟩
  rw [hfs, List.drop_left' (by simp)]
  exact List.mem_singleton_self f

section

variable {U : Prototype → Prop} (hU : IsCatalog U) {strict : Bool}
  (hosts : ∀ name, Script ⟨U, .host, true, strict⟩ (embedding name))

include hU hosts

/-- A call goes on from stage to stage until the function returns. -/
theorem next (hs : s.Steady ⟨U, true, fun _ => False⟩ ts) (hk : s.machine.Kempt true false)
    (haw : s.machine.running.Awaits fs caller slot wanted) (hnext : Stage.Next embedding s s') :
    s'.machine.running.Awaits fs caller slot wanted ∨ s.HandsOver fs caller slot wanted s' := by
  obtain ⟨-, hserves⟩ := hnext.serves hU hs hk hosts haw.lt_depth haw.serves
  rcases hnext.cases with heq | ⟨k, d, a, o, heq, hstep⟩
  · exact .inl (heq ▸ haw)
  · have hjob := congrArg Stage.job heq
    obtain ⟨j, f, c, h, -⟩ := hs.atWork rfl hjob
    have hrun := Stage.engines_run (S := ⟨U, true, fun _ => False⟩) hU (fun _ => id) hosts k
    rcases haw.callee.step hU hrun hosts rfl hs.machine (fun _ _ => id) h (placeless slot wanted) hstep with
      hbears | ⟨hfs, ⟨hslot, hwanted⟩, hends⟩
    · exact .inl ⟨haw.lua, hbears, hserves⟩
    rcases hends with ⟨x, y, after, hfetch, hfs'⟩ | ⟨x, y, after, g, -, hfs', hslot', hwanted'⟩
    · have hle : f.slot ≤ a.window.base + x :=
        (haw.atop hfs).2.2.trans (h.base ▸ Nat.le_add_right _ x)
      have hover := (Activation.returned_to hfs haw.lua hle hfetch hstep).2
      exact .inr ⟨d, a, x, y, after, hjob, hfetch, hslot ▸ hwanted ▸ hover⟩
    · exact .inl ⟨haw.lua, ⟨g, [], hfs', hslot'.trans hslot, hwanted'.trans hwanted⟩, hserves⟩

/-- So it does over a whole run. -/
theorem leads (hs : s.Steady ⟨U, true, fun _ => False⟩ ts) (hk : s.machine.Kempt true false)
    (haw : s.machine.running.Awaits fs caller slot wanted)
    (h : Stage.LeadsWhile embedding (fun s => fs.length + 1 < s.machine.depth) s s') :
    (s'.Steady ⟨U, true, fun _ => False⟩ ts ∧ s'.machine.Kempt true false) ∧
      (s'.machine.running.Awaits fs caller slot wanted ∨
        ∃ s₁, Stage.LeadsWhile embedding (fun s => fs.length + 1 < s.machine.depth) s s₁ ∧
          s₁.machine.running.Awaits fs caller slot wanted ∧ s₁.HandsOver fs caller slot wanted s') := by
  induction h with
  | refl => exact ⟨⟨hs, hk⟩, .inl haw⟩
  | @tail s₁ s₂ hleads hnext ih =>
    obtain ⟨hdepth, hnext⟩ := hnext
    obtain ⟨⟨hs₁, hk₁⟩, hcall⟩ := ih
    have haw₁ : s₁.machine.running.Awaits fs caller slot wanted := by
      refine hcall.resolve_right ?_
      rintro ⟨s₀, -, -, d, a, x, y, after, -, -, hover⟩
      rw [Machine.depth, ← Array.length_toList, hover.frames, List.length_append] at hdepth
      exact lt_irrefl _ hdepth
    have hs₂ := hnext.steady (S := ⟨U, true, fun _ => False⟩) hU (fun _ => id) hosts hs₁
    have hk₂ := (hnext.serves hU hs₁ hk₁ hosts haw₁.lt_depth haw₁.serves).1
    refine ⟨⟨hs₂, hk₂⟩, (haw₁.next hU hosts hs₁ hk₁ hnext).imp_right fun hover => ?_⟩
    exact ⟨s₁, hleads, haw₁, hover⟩

/-- A call that yields is still under way. -/
theorem yield (hm : m.Steady ⟨U, true, fun _ => False⟩ ts) (hk : m.Kempt true false)
    (h : Regime.AtWork ⟨U, true, fun _ => False⟩ d j a m f c) (haw : m.running.Awaits fs caller slot wanted)
    (hstep : step embedding (run embedding fuel) a m = .error .yield m') :
    m'.running.Awaits fs caller slot wanted := by
  have hrun := Stage.engines_run (S := ⟨U, true, fun _ => False⟩) hU (fun _ => id) hosts fuel
  have hdepth := h.top rfl
  have hlt := haw.lt_depth
  have hserves := (h.step_serves hU hm hk hosts (show fs.length + 1 ≤ j by omega) haw.serves hstep).2
    fun e m'' heq => by
      obtain ⟨rfl, -⟩ := EStateM.Result.error.inj heq
      rfl
  have hcallee := haw.callee.yield hU hrun hosts rfl hm (fun _ _ => id) h (placeless slot wanted) hstep
  exact ⟨haw.lua, hcallee, hserves⟩

end

end Strand.Awaits

section

variable {U : Prototype → Prop} (hU : IsCatalog U) {strict : Bool} (hk : m.Kempt true false)

include hU hk

section

variable (hm : m.Steady ⟨U, true, fun _ => False⟩ ts)
  (h : Regime.AtWork ⟨U, true, fun _ => False⟩ d j a m f c) (hfetch : a.fetch? = some ⟨.call x y z, after⟩)

include hm h hfetch

/-- A `CALL` that has entered a function, or that yields, has started a call. -/
theorem Regime.AtWork.awaits_of_call (hosts : ∀ name, Script ⟨U, .host, true, strict⟩ (embedding name))
    (hfs : m.running.frames.toList = fs ++ [f]) {r : Outcome (Option Activation)}
    (hstep : step embedding (run embedding fuel) a m = r)
    (hr : (∃ m', r = .ok none m') ∨ ∃ m', r = .error .yield m') :
    r.state.running.Awaits fs { f with pc := a.pc + 1 } (a.window.base + x) (wantedBy z) := by
  let C : Custody := ⟨⟨U, true, fun _ => False⟩, fun _ _ => False, false⟩
  have hfree : ¬ C.Strict := fun ⟨_, _, h⟩ => h
  have hminds : C.Minds (run embedding fuel) := Custody.minds_run (C := C) hU hfree (fun _ => id) rfl hosts fuel
  have hdepth : m.depth = fs.length + 1 := by
    rw [Machine.depth, ← Array.length_toList, hfs, List.length_append, List.length_singleton]
  obtain ⟨htends, -⟩ := stepCall_tends (C := C) hU (fun name => (hosts name).tame rfl hfree) hminds hm hk
    (fun _ _ => id) h hfetch
  rw [hstep, hdepth] at htends
  have hserves : r.state.running.Serves (fs.length + 1) (a.window.base + x) := by
    refine (htends.leased ?_).serves
    rcases hr with ⟨m', rfl⟩ | ⟨m', rfl⟩
    · exact fun _ _ heq => by cases heq
    · intro e m'' heq
      obtain ⟨rfl, -⟩ := EStateM.Result.error.inj heq
      rfl
  refine ⟨Frame.isLua_of_closure? h.closure, ?_, hserves⟩
  rcases hr with ⟨m', rfl⟩ | ⟨m', rfl⟩
  · have hreframes := h.reframes hU hminds.engines hosts rfl hm (fun _ _ => id) hfs hstep
    generalize hfs' : m'.running.frames.toList = fs' at hreframes
    cases hreframes with
    | @calls x' y' z' after' g hfetch' hslot hwanted =>
      obtain ⟨⟨rfl, rfl, rfl⟩, rfl⟩ : (x = x' ∧ y = y' ∧ z = z') ∧ after = after' := by
        simpa using hfetch.symm.trans hfetch'
      exact ⟨_, [], by rw [Outcome.state, hfs', List.append_assoc]; rfl, hslot, hwanted⟩
    | gives hfetch' => simp [hfetch] at hfetch'
    | returns hfetch' => simp [hfetch] at hfetch'
  · obtain ⟨-, -, below, x', y', z', after', hbelow, hop, hstopped⟩ :=
      h.yields hU hminds.engines hosts rfl hm (fun _ _ => id) hstep
    obtain ⟨host, hfs', -, hslot, hwanted⟩ := hstopped.called
    obtain ⟨rfl, -⟩ := List.append_inj' (hbelow.symm.trans hfs) rfl
    rcases hop with hfetch' | ⟨hfetch', -⟩
    · obtain ⟨⟨rfl, rfl, rfl⟩, rfl⟩ : (x = x' ∧ y = y' ∧ z = z') ∧ after = after' := by
        simpa using hfetch.symm.trans hfetch'
      exact ⟨host, [], by rw [Outcome.state, hfs', List.append_assoc]; rfl, hslot, hwanted⟩
    · simp [hfetch] at hfetch'

end

/-- A call from which a coroutine has yielded goes on when this is resumed, or ends with the arguments as the
results of the host function that was called. -/
theorem Strand.Awaits.resumed (hm : m.Steady ⟨U, true, fun _ => False⟩ ts) {c : CoroutineId} {s : Strand}
    (hc : (m.heap.coroutine c).status = .suspended) (hs : (m.heap.coroutine c).strand = some s)
    (haw : s.Awaits fs caller slot wanted) (args : List Value) :
    (∃ m', wake args (m.resumed c) = .ok () m' ∧ m'.Steady ⟨U, true, fun _ => False⟩ (c :: ts) ∧
        m'.Kempt true false ∧ SameBelow slot s.stack m'.running.stack ∧
          (m'.running.Awaits fs caller slot wanted ∨
            (m.resumed c).HandsOver m' fs caller slot wanted args)) ∨
      Outcome.Overflows (wake args (m.resumed c)) := by
  obtain ⟨hrunning, -⟩ := Machine.running_resumed hm hc hs
  rw [← hrunning] at haw ⊢
  have hlt := haw.lt_depth
  have hframes : (m.resumed c).running.frames ≠ #[] := fun h => by
    rw [Machine.depth, h] at hlt
    simp at hlt
  obtain ⟨fs', caller', host, hfs, -, htop, hwakes⟩ := wake_goesOn hU hm hk hc hframes args
  refine hwakes.imp_left ?_
  rintro ⟨m', hwake, hover, hm', hk', hserves⟩
  obtain ⟨hbelow, hserves'⟩ := hserves _ _ hlt haw.serves
  refine ⟨m', hwake, hm', hk', hbelow, ?_⟩
  rcases haw.callee.wake hfs htop.le hwake with hbears | ⟨heq, rfl, rfl⟩
  · exact .inl ⟨haw.lua, hbears, hserves'⟩
  · obtain ⟨rfl, hcaller⟩ := List.append_inj' heq rfl
    obtain rfl := List.singleton_inj.1 hcaller
    exact .inr hover

end

/-! What is true of calls -/

/-- A call is under way at a stage of a run. -/
structure Stage.Calls (embedding : Embedding) (fs : List Frame) (caller : Frame) (slot : Nat)
    (wanted : Option Nat) (s : Stage) : Prop where
  /-- It is under way until the function returns and its caller gets the results. -/
  goesOn : ∀ {s'}, LeadsWhile embedding (fun t => fs.length + 1 < t.machine.depth) s s' →
    s'.machine.running.Awaits fs caller slot wanted ∨
      ∃ s₁, LeadsWhile embedding (fun t => fs.length + 1 < t.machine.depth) s s₁ ∧
        s₁.machine.running.Awaits fs caller slot wanted ∧ s₁.HandsOver fs caller slot wanted s'
  /-- So it is where a yield stops it. -/
  yields : ∀ {s' k d a m'}, LeadsWhile embedding (fun t => fs.length + 1 < t.machine.depth) s s' →
    s'.machine.running.Awaits fs caller slot wanted → s'.job = .proceed d a →
      step embedding (run embedding k) a s'.machine = .error .yield m' →
        m'.running.Awaits fs caller slot wanted
  /-- Meanwhile what lies below the function has the same value, unless something is assigned to it through an
  upvalue, and so it does where a step fails. -/
  lasts : ∀ {i v s'}, i < slot → s.machine.slot? s.machine.running.owner i = some v →
    LeadsWhile embedding
      (fun t => fs.length + 1 < t.machine.depth ∧ ¬ t.Assigns embedding s.machine.running.owner i) s s' →
    s'.machine.slot? s.machine.running.owner i = some v ∧
      ∀ {k d a}, s' = ⟨k + 1, .proceed d a, s'.machine⟩ → fs.length + 1 < s'.machine.depth →
        ¬ s'.Assigns embedding s.machine.running.owner i →
          (Outcome.state (step embedding (run embedding k) a s'.machine)).slot? s.machine.running.owner i =
            some v

/-- A `CALL` is about to be made by a frame that lies on given ones. -/
structure Activation.MakesCall (embedding : Embedding) (fuel : Nat) (fs : List Frame) (f : Frame)
    (d x y z after : Nat) (a : Activation) (m : Machine) : Prop where
  /-- Where a host function was run, the frame has what this has given and goes on. -/
  host : ∀ {a' m'}, step embedding (run embedding fuel) a m = .ok (some a') m' →
    a' = { a with pc := after } ∧ ∃ n m₁,
      beginCall embedding (run embedding fuel) a.window x y z (m.atPc (a.pc + 1)) = .ok (some n) m₁ ∧
      m₁.HandsOver m' fs { f with pc := a.pc + 1 } (a.window.base + x) (wantedBy z)
        (m₁.given (a.window.base + x) n)
  /-- Where a Lua function was entered, or a host function has yielded, a call is under way. -/
  lua : ∀ {m'}, step embedding (run embedding fuel) a m = .ok none m' →
    Stage.Calls embedding fs { f with pc := a.pc + 1 } (a.window.base + x) (wantedBy z) ⟨fuel, .execute d, m'⟩
  yields : ∀ {m'}, step embedding (run embedding fuel) a m = .error .yield m' →
    m'.running.Awaits fs { f with pc := a.pc + 1 } (a.window.base + x) (wantedBy z)
  /-- What lies below the function has the same value after that. -/
  lasts : ∀ {i v}, i < a.window.base + x → m.slot? m.running.owner i = some v →
    ¬ Stage.Assigns embedding m.running.owner i ⟨fuel + 1, .proceed d a, m⟩ →
      (Outcome.state (step embedding (run embedding fuel) a m)).slot? m.running.owner i = some v

/-- Results of calls that are made in a state of a machine arrive. -/
structure Machine.ResultsArrive (S : Regime) (strict : Bool) (embedding : Embedding) (fuel : Nat) (m : Machine) :
    Prop where
  /-- The frame at work makes a call. -/
  call : ∀ {d j a f c x y z after}, S.AtWork d j a m f c → a.fetch? = some ⟨.call x y z, after⟩ →
    ∃ fs, m.running.frames.toList = fs ++ [f] ∧ a.MakesCall embedding fuel fs f d x y z after m
  /-- A call is under way while its coroutine sleeps. -/
  asleep : ∀ {c s fs caller slot wanted}, (m.heap.coroutine c).status = .suspended →
    (m.heap.coroutine c).strand = some s → s.Awaits fs caller slot wanted →
      m.Undisturbed S strict embedding fuel c (·.Awaits fs caller slot wanted)
  /-- When this is resumed the call goes on, or it is over and the caller gets the arguments. -/
  resumed : ∀ {c s fs caller slot wanted}, (m.heap.coroutine c).status = .suspended →
    (m.heap.coroutine c).strand = some s → s.Awaits fs caller slot wanted →
      m.nativeCalls < m.options.maxNativeCalls → ∀ args, Outcome.Overflows (wake args (m.resumed c)) ∨
        ∃ m', resume (run embedding fuel) c args m =
            resumeEnds c m.current ((run embedding fuel (.execute 0) >>= fun _ => gather) m') ∧
          SameBelow slot s.stack m'.running.stack ∧
            (Stage.Calls embedding fs caller slot wanted ⟨fuel, .execute 0, m'⟩ ∨
              (m.resumed c).HandsOver m' fs caller slot wanted args)

section

variable {U : Prototype → Prop} (hU : IsCatalog U) {strict : Bool}
  (hosts : ∀ name, Tame ⟨U, .host, true, strict⟩ True (embedding name))

include hU hosts

theorem Strand.Awaits.calls (hs : s.Steady ⟨U, true, fun _ => False⟩ ts) (hk : s.machine.Kempt true false)
    (haw : s.machine.running.Awaits fs caller slot wanted) : s.Calls embedding fs caller slot wanted where
  goesOn hleads := (haw.leads hU (fun name => (hosts name).script) hs hk hleads).2
  yields hleads haw' hjob hstep := by
    obtain ⟨⟨hs', hk'⟩, -⟩ := haw.leads hU (fun name => (hosts name).script) hs hk hleads
    obtain ⟨j, f, c, h, -⟩ := hs'.atWork rfl hjob
    exact haw'.yield hU (fun name => (hosts name).script) hs'.machine hk' h hstep
  lasts {i v s'} hi hv hleads := by
    have hlasts := hleads.lasts hU hs hk haw.serves hosts hi hv
    obtain ⟨hs', hk', hserves', howner⟩ :=
      Stage.LeadsWhile.serves hU hs hk haw.serves (fun name => (hosts name).script)
        (Stage.LeadsWhile.imp hleads fun _ => And.left)
    refine ⟨hlasts, fun {k d a} heq hdepth hassigns => ?_⟩
    obtain ⟨j, f, c, h, hj⟩ := hs'.atWork rfl (congrArg Stage.job heq)
    have hno (hassign : a.Assigns s'.machine s.machine.running.owner i ∨ ¬ Always embedding
        (fun t => ¬ t.Assigns s.machine.running.owner i) k (fun run => step embedding run a) s'.machine) :
        False := hassigns ⟨k, d, a, congrArg Stage.fuel heq, congrArg Stage.job heq, hassign⟩
    rw [← howner] at hlasts hno ⊢
    exact h.step_lasts hU hs'.machine hk' hosts (show fs.length + 1 ≤ j by omega) hserves' hi
      (fun h => hno (.inl h)) (not_not.1 fun h => hno (.inr h)) hlasts

theorem Regime.AtWork.makesCall (hk : m.Kempt true false) (hm : m.Steady ⟨U, true, fun _ => False⟩ ts)
    (h : Regime.AtWork ⟨U, true, fun _ => False⟩ d j a m f c) (hfetch : a.fetch? = some ⟨.call x y z, after⟩)
    (hfs : m.running.frames.toList = fs ++ [f]) :
    a.MakesCall embedding fuel fs f d x y z after m where
  host hstep := by
    have hrun := Stage.engines_run (S := ⟨U, true, fun _ => False⟩) hU (fun _ => id)
      (fun name => (hosts name).script) fuel
    exact h.host_handsOver hU hrun (fun name => (hosts name).script) rfl hm (fun _ _ => id) hfs hfetch hstep
  lua {m'} hstep := by
    have hs : Stage.Steady ⟨U, true, fun _ => False⟩ ts ⟨fuel + 1, .proceed d a, m⟩ :=
      ⟨hm, fun _ _ => id, j, f, c, h⟩
    have hnext : Stage.Next embedding ⟨fuel + 1, .proceed d a, m⟩ ⟨fuel, .execute d, m'⟩ := .left hstep
    have haw := h.awaits_of_call hU hk hm hfetch (fun name => (hosts name).script) hfs hstep (.inl ⟨m', rfl⟩)
    have hs' := hnext.steady (S := ⟨U, true, fun _ => False⟩) hU (fun _ => id)
      (fun name => (hosts name).script) hs
    have hdepth : 0 < m.depth := Nat.zero_lt_of_lt h.lt_depth
    obtain ⟨hk', -⟩ := hnext.serves hU hs hk (fun name => (hosts name).script) hdepth m.running.serves_zero
    exact haw.calls hU hosts (s := ⟨fuel, .execute d, m'⟩) hs' hk'
  yields {m'} hstep :=
    h.awaits_of_call hU hk hm hfetch (fun name => (hosts name).script) hfs hstep (.inr ⟨m', rfl⟩)
  lasts hi hv hassigns := h.call_lasts hU hm hk hfetch hosts hi hv hassigns

end

/-- A function that was called hands its results to the frame that called it, which has as many of them as it
wants; what lies below the function lasts but for what is assigned to through upvalues. -/
theorem results_reach_caller {U : Prototype → Prop} (hU : IsCatalog U) {strict : Bool}
    (hm : m.Occurs ⟨U, .host, true, strict⟩)
    (hosts : ∀ name, Tame ⟨U, .host, true, strict⟩ True (embedding name)) (fuel : Nat) :
    m.ResultsArrive ⟨U, true, fun _ => False⟩ strict embedding fuel := by
  obtain ⟨ts, hsteady⟩ := hm.reachable.steady hU
  have hkempt := hm.kempt hU
  refine ⟨fun {d j a f c x y z after} h hfetch => ?_, fun hc hs haw => ?_, fun hc hs haw hnative args => ?_⟩
  · obtain ⟨fs, hfs, -⟩ := h.exists_frames rfl
    exact ⟨fs, hfs, h.makesCall hU hosts hkempt hsteady hfetch hfs⟩
  · exact Machine.undisturbed hU hosts hkempt hc hs fun _ _ _ => haw.rests
  · obtain ⟨hrunning, -⟩ := Machine.running_resumed hsteady hc hs
    have hframes : (m.resumed _).running.frames ≠ #[] := fun hnil => by
      rw [← hrunning] at haw
      have hlt := haw.lt_depth
      rw [Machine.depth, hnil] at hlt
      simp at hlt
    refine (haw.resumed hU hkempt hsteady hc hs args).symm.imp_right ?_
    rintro ⟨m', hwake, hm', hk', hbelow, hcall⟩
    refine ⟨m', ?_, hbelow, hcall.imp_left fun haw' => ?_⟩
    · rw [resume_of_frames _ args hc hnative hframes, Action.bind_ok hwake]
    · exact haw'.calls hU hosts (s := ⟨fuel, .execute 0, m'⟩) ⟨hm', trivial⟩ hk'

/-! The function that calls its argument -/

/-- A host function that gives two values. -/
def pairHost : Embedding := fun _ _ => pushValues [.bool true, .nil]

theorem pairHost_tame {R : Conduct} (hhost : R.seat = .host) {name : String} : Tame R True (pairHost name) :=
  .pushValues hhost _

/-- The function is stopped when it is about to call the host function. -/
def Errand.relay : Errand ⟨Prototype.relay.Contains, .host, true, true⟩ where
  script := loadAndCall .relay [.function (.host (.embedded "pair"))]
  isScript := .loadAndCall Prototype.relay.contains_self rfl _
  embedding := pairHost
  hosts := fun _ => (pairHost_tame rfl).script
  fuel := 2

def Machine.relaying : Machine := (Errand.relay.outcome (bare.withMode .off)).state

theorem Machine.relaying_occurs : relaying.Occurs ⟨Prototype.relay.Contains, .host, true, true⟩ :=
  ⟨_, .relay, fun _ => False, .blank (bare_blank.withMode .off) rfl, by rw [Errand.upTo_never, relaying]⟩

def Frame.relay : Frame := ⟨.lua ⟨0⟩, none, 0, 1, 3, 0, none, 1, 0, false⟩

def Activation.relay : Activation := ⟨⟨⟨.relay, #[], ⟨0⟩, none⟩, 1⟩, .interpreter, 0⟩

theorem Machine.relaying_atWork {U : Prototype → Prop} :
    Regime.AtWork ⟨U, true, fun _ => False⟩ 0 0 .relay relaying .relay ⟨0⟩ where
  frame := rfl
  depth := le_rfl
  closure := rfl
  base := rfl
  proto := rfl
  engine := .inl rfl
  unit := nofun
  top _ := by decide +kernel

/-- Whether a step has left its frame on top. -/
def Outcome.goesOn : Outcome (Option Activation) → Bool
  | .ok (some _) _ => true
  | _ => false

theorem Outcome.eq_ok_of_goesOn {r : Outcome (Option Activation)} (h : r.goesOn = true) :
    ∃ a m, r = .ok (some a) m := by
  cases r with
  | error e m => cases h
  | ok o m =>
    cases o with
    | none => cases h
    | some a => exact ⟨a, m, rfl⟩

theorem results_reach_caller_relaying : ∃ (m₁ m' : Machine) (n : Nat),
    step pairHost (run pairHost 9) .relay Machine.relaying = .ok (some { Activation.relay with pc := 1 }) m' ∧
      m₁.HandsOver m' [] { Frame.relay with pc := 1 } 1 (some 1) (m₁.given 1 n) := by
  have hcatalog := Prototype.relay_isProgram.isCatalog
  have harrive : Machine.relaying.ResultsArrive ⟨Prototype.relay.Contains, true, fun _ => False⟩ true pairHost 9 :=
    results_reach_caller hcatalog Machine.relaying_occurs (fun _ => pairHost_tame rfl) 9
  obtain ⟨fs, hfs, hcall⟩ := harrive.call Machine.relaying_atWork rfl
  have hframes : Machine.relaying.running.frames.toList = [] ++ [Frame.relay] := rfl
  obtain rfl : fs = [] := (List.append_inj' (hfs.symm.trans hframes) rfl).1
  have hgoes : Outcome.goesOn (step pairHost (run pairHost 9) .relay Machine.relaying) = true := by
    decide +kernel
  obtain ⟨a', m', hstep⟩ := Outcome.eq_ok_of_goesOn hgoes
  obtain ⟨rfl, n, m₁, -, hover⟩ := hcall.host hstep
  exact ⟨m₁, m', n, hstep, hover⟩

end LuaMachine
