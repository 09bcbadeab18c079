import LuaMachine.Proofs.Resuming

/-!
Calls start: the called value is resolved, a host function runs to its end or yields, and a Lua function
gets a frame. A host function that yields leaves its frame above that of its caller.
-/

namespace LuaMachine

open Setting (Resolved)

/-- What host functions of an embedding program may do. -/
def Regime.host (S : Regime) (strict : Bool) : Conduct := ⟨S.program, .host, S.honest, strict⟩

/-- A call over given frames fails. It yields only in a host function of a coroutine, and where these
keep to the rules, right in the one that was called. -/
def Regime.HostFails (S : Regime) (ts : List CoroutineId) (fs : List Frame) (slot : Nat)
    (wanted : Option Nat) (e : Fault) (m : Machine) : Prop :=
  e = .yield → S.Awake ts ∧ (ts ≠ [] → 2 ≤ m.depth) ∧ (S.honest = true →
    ts ≠ [] ∧ m.running.boundaries = 0 ∧ slot < m.running.top ∧
      ∃ host, m.running.frames.toList = fs ++ [host] ∧ host.isLua = false ∧ host.slot = slot ∧
        host.wanted = wanted)

variable {S : Regime} {ts : List CoroutineId} {m m' : Machine} {d slot : Nat} {fs : List Frame}
  {c : ClosureId} {α : Type}

/-- The frame on top and those below it. -/
theorem Machine.exists_append_frame (h : 0 < m.depth) : ∃ fs f,
    m.running.frames.toList = fs ++ [f] ∧ fs.length + 1 = m.depth := by
  rw [depth, ← Array.length_toList] at h ⊢
  rcases List.eq_nil_or_concat m.running.frames.toList with hnil | ⟨fs, f, hfs⟩
  · simp [hnil] at h
  · exact ⟨fs, f, hfs.trans List.concat_eq_append, by simp [hfs]⟩

/-- What a mode makes of the outcome of compiling a function. -/
def CompileMode.choose (mode : CompileMode) :
    Except CompileError CompiledUnit → Action (Option CompiledUnit)
  | .ok unit => pure (some unit)
  | .error e => if mode = .strict then throw (.compile e) else pure none

theorem unitFor_eq (c : ClosureId) (m : Machine) : unitFor c m =
    if m.options.mode = .off then .ok none m
    else (compileClosure c >>= m.options.mode.choose) m := by
  simp only [unitFor, Action.bind_ok (Action.view_apply _ _)]
  cases m.options.mode <;> rfl

section

variable (hS : IsCatalog S.program)

include hS

/-! Resolving the called value -/

/-- Compiling changes nothing but units and caches. -/
theorem compileClosure_shift (hm : m.Steady S ts) (hc : c.index < m.heap.closures.size) :
    ∃ r h, compileClosure c m = .ok r { m with heap := h } ∧ m.Shift S { m with heap := h } ∧
      h.cells = m.heap.cells ∧ h.coroutines = m.heap.coroutines ∧
        ∀ u, r = .ok u → (m.heap.closure c).proto.IsUnit u := by
  have hclosure := hm.closures _ (Heap.closure_mem hc)
  cases hunit : (m.heap.closure c).unit with
  | some r =>
    refine ⟨r, m.heap, ?_, hm.shift_heap rfl rfl (.refl _) hm.closures hm.caches, rfl, rfl, fun u hu =>
      hclosure.unit u (hu ▸ hunit)⟩
    simp [compileClosure, Action.bind_apply, hunit]
  | none =>
    obtain ⟨hr, hcache⟩ := (hm.tidy_cache m.cache).getOrCompile hS hclosure.program
    rcases hcompiled : (m.heap.cache m.cache).getOrCompile (m.heap.closure c).proto with ⟨r, cc⟩
    rw [hcompiled] at hr hcache
    refine ⟨r, m.heap.compiled m.cache cc c r, ?_, ?_, rfl, rfl, hr⟩
    · simp only [compileClosure, Action.bind_apply, Action.view_apply, hunit, Action.onHeap_apply,
        Heap.compile, hcompiled]
      rfl
    refine hm.shift_heap rfl rfl (Heap.extends_modifyClosure _ c _) (fun d hd => ?_) fun d hd => ?_
    · rcases Heap.mem_modifyClosure hd with hmem | ⟨hmem, rfl⟩
      · exact hm.closures d hmem
      · exact ⟨(hm.closures _ hmem).program, fun u hu => hr u (Option.some.inj hu)⟩
    · rcases Array.mem_or_eq_of_mem_setIfInBounds hd with hmem | rfl
      · exact hm.caches d hmem
      · exact hcache

theorem compileClosure_ends (hm : m.Steady S ts) (hc : c.index < m.heap.closures.size) (d : Nat) :
    S.Ends ts d m (fun r m' => m'.running.frames = m.running.frames ∧
      ∀ u, r = .ok u → (m.heap.closure c).proto.IsUnit u) (fun e _ => e ≠ .yield)
      (compileClosure c m) := by
  obtain ⟨r, h, happly, hshift, -, -, hr⟩ := compileClosure_shift hS hm hc
  rw [happly]
  exact ⟨hm.drift hshift.drift hshift.tidy, .of_shift hshift d, hshift.frames, hr⟩

theorem unitFor_ends (hm : m.Steady S ts) (hc : c.index < m.heap.closures.size) (d : Nat) :
    S.Ends ts d m (fun o m' => m'.running.frames = m.running.frames ∧
      ∀ u, o = some u → (m.heap.closure c).proto.IsUnit u) (fun e _ => e ≠ .yield) (unitFor c m) := by
  rw [unitFor_eq]
  split
  · exact .pure hm ⟨rfl, by simp⟩
  · refine (compileClosure_ends hS hm hc d).bind fun r m' _ hm' _ hcompiled => ?_
    obtain ⟨hfs, hunit⟩ := hcompiled
    cases r with
    | ok u => exact .pure hm' ⟨hfs, fun v hv => hunit v (congrArg _ (Option.some.inj hv))⟩
    | error e =>
      dsimp only [CompileMode.choose]
      split
      · exact .fail hm' (by simp)
      · exact .pure hm' ⟨hfs, by simp⟩

/-- A handler takes the place of the value that is called, which becomes the first argument. -/
def placeHandler (slot argCount : Nat) (h : Value) : Action Unit := do
  ensureStack (slot + argCount + 2 + Limit.extraStack)
  shiftSlots (slot + argCount + 1) (argCount + 1)
  writeSlot slot h
  setTop (slot + argCount + 2)

omit hS in
theorem Orderly.placeHandler {R : Conduct} (hslot : R.seat.Frees slot) (argCount : Nat) (h : Value) :
    Orderly R (placeHandler slot argCount h) :=
  .andThen (.ensureStack _) fun _ => .andThen (.shiftSlots (hslot.mono (by omega))) fun _ =>
    .andThen (.writeSlot hslot h) fun _ => .setTop (hslot.mono (by omega))

/-- What becomes of the call of the value in a slot: a function is called as it is, for any other value
its handler is looked at next. -/
inductive Resolving (slot steps argCount : Nat) (m : Machine) : Outcome (Target × Nat) → Prop
  | missing : Resolving slot steps argCount m (.error .crash m)
  | lua {c : ClosureId} (hread : m.running.stack[slot]? = some (.function (.lua c)))
      (hc : c.index < m.heap.closures.size) : Resolving slot steps argCount m
        ((unitFor c >>= fun unit => pure (.lua c unit, argCount)) m)
  | host {f : Function} (hread : m.running.stack[slot]? = some (.function f)) (hf : ∀ c, f ≠ .lua c) :
    Resolving slot steps argCount m (.ok (.host f, argCount) m)
  | fails {v : Value} (hread : m.running.stack[slot]? = some v) (hh : m.handler? v .call = none) :
    Resolving slot steps argCount m (raise (.operand .call v.type) m)
  | handler {v h : Value} (hread : m.running.stack[slot]? = some v) (hv : ∀ f, v ≠ .function f)
      (hh : m.handler? v .call = some h) : Resolving slot steps argCount m
        ((placeHandler slot argCount h >>= fun _ => resolveCall slot steps (argCount + 1)) m)

omit hS in
theorem resolving (slot steps argCount : Nat) (m : Machine) :
    Resolving slot steps argCount m (resolveCall slot (steps + 1) argCount m) := by
  rw [resolveCall, Action.bind_apply]
  cases hread : readSlot slot m with
  | error e m' =>
    unfold readSlot at hread
    split at hread
    · cases hread
    · obtain ⟨rfl, rfl⟩ := EStateM.Result.error.inj hread
      exact .missing
  | ok v m' =>
    obtain ⟨hv, rfl⟩ := readSlot_eq_ok.1 hread
    have hhandler (hne : ∀ f, v ≠ .function f) :
        Resolving slot steps argCount m' (resolveHandler slot steps argCount v m') := by
      rw [resolveHandler, Action.bind_ok (Action.view_apply _ _)]
      cases hh : m'.handler? v .call with
      | none => exact .fails hv hh
      | some h =>
        have hnext : Resolving slot steps argCount m'
            ((placeHandler slot argCount h >>= fun _ => resolveCall slot steps (argCount + 1)) m') :=
          .handler hv hne hh
        simpa only [placeHandler, bind_assoc] using hnext
    cases v with
    | function f =>
      cases f with
      | lua c =>
        dsimp only
        rcases Nat.lt_or_ge c.index m'.heap.closures.size with hc | hc
        · rw [Action.bind_ok (show checkClosure c m' = .ok () m' from if_pos hc)]
          exact .lua hv hc
        · have hcheck : checkClosure c m' = .error .crash m' := if_neg (Nat.not_lt.2 hc)
          simp only [Action.bind_apply, hcheck]
          exact .missing
      | host g => exact .host hv (by simp)
      | hostClosure g => exact .host hv (by simp)
    | _ => exact hhandler (by simp)

/-- A call comes down to a host function or a function of the program, the one in the slot if there
is one. -/
theorem resolveCall_ends (hm : m.Steady S ts) (hslot : m.running.Floor slot) (steps argCount d : Nat) :
    S.Ends ts d m (fun r m' => m'.running.frames = m.running.frames ∧ Resolved m'.heap r.1 ∧
        ∀ c, m.running.stack[slot]? = some (.function (.lua c)) → ∃ u, r.1 = .lua c u)
      (fun e _ => e ≠ .yield) (resolveCall slot steps argCount m) := by
  induction steps generalizing m argCount with
  | zero => exact .fail hm (by simp)
  | succ steps ih =>
    have hresolving := resolving slot steps argCount m
    generalize resolveCall slot (steps + 1) argCount m = r at hresolving ⊢
    cases hresolving with
    | missing => exact .stop hm rfl
    | @lua c hread hc =>
      refine (unitFor_ends hS hm hc d).bind fun o m₁ _ hm₁ hk hunit => ?_
      refine .pure hm₁ ⟨hunit.1, ⟨(hk.extend c hc).1, ?_⟩, fun c' hc' => ⟨o, ?_⟩⟩
      · rw [hk.extend.proto hc]
        exact hunit.2
      · obtain rfl : c = c' := by simpa [hread] using hc'
        rfl
    | @host f hread hf =>
      refine .pure hm ⟨rfl, hf, fun c hc => absurd ?_ (hf c)⟩
      exact Value.function.inj (Option.some.inj (hread.symm.trans hc))
    | fails _ _ => exact .fail hm (by simp)
    | @handler v h hread hv _ =>
      have hplace : Orderly (S.between slot) (placeHandler slot argCount h) :=
        .placeHandler (show (Seat.between slot).Frees slot from le_rfl) argCount h
      refine (hplace.sequence.ends_between hS d hm hslot rfl).bind fun _ m' _ hm' hk hfs => ?_
      exact (ih hm' (hk.floor_of_frames hfs hslot) (argCount + 1)).imp
        (fun _ _ hr => ⟨hr.1.trans hfs, hr.2.1, fun c hc =>
          absurd (Option.some.inj (hread.symm.trans hc)) (hv _)⟩) fun _ _ => id

end

/-! Running what was called -/

theorem Script.hostBody {R : Conduct} (hseat : R.seat = .host) {embedding : Embedding}
    (hembedding : ∀ name, Script R (embedding name)) (f : Function) :
    Script R fun run => hostBody embedding f run := by
  have hbody (g : HostFunction) : Script R (g.body embedding) := by
    cases g with
    | builtin g => exact g.script hseat
    | embedded name => exact hembedding name
  cases f with
  | host g => exact hbody g
  | hostClosure c => exact .andThen (.view _ fun _ => rfl) hbody
  | lua c => exact .throw (by simp)

/-- There is room for the arguments of a host function. -/
def makeRoom (slot argCount : Nat) : Action Unit := do
  checkDepth
  ensureStack (slot + 1 + argCount + Limit.minStack)
  setTop (slot + 1 + argCount)

theorem Orderly.makeRoom {R : Conduct} (h : R.seat.Frees slot) (argCount : Nat) :
    Orderly R (makeRoom slot argCount) :=
  .andThen .checkDepth fun _ => .andThen (.ensureStack _) fun _ => .setTop (h.mono (by omega))

/-- Runs a host function in a frame of its own, which stays on top. -/
def runHost (embedding : Embedding) (run : Run) (f : Function) (slot argCount : Nat) (wanted : Option Nat) :
    Action Nat := do
  makeRoom slot argCount
  pushFrame (hostFrame f slot argCount wanted)
  hostBody embedding f run

theorem callHost_eq_runHost (embedding : Embedding) (run : Run) (f : Function) (slot argCount : Nat)
    (wanted : Option Nat) :
    callHost embedding run f slot argCount wanted =
      runHost embedding run f slot argCount wanted >>= fun n => leaveHost slot n := by
  rw [callHost_eq]
  simp only [runHost, makeRoom, bind_assoc]

theorem callHost_eq_makeRoom (embedding : Embedding) (run : Run) (f : Function) (slot argCount : Nat)
    (wanted : Option Nat) :
    callHost embedding run f slot argCount wanted =
      makeRoom slot argCount >>= fun _ => pushFrame (hostFrame f slot argCount wanted) >>= fun _ =>
        LuaMachine.hostBody embedding f run >>= fun n => leaveHost slot n := by
  rw [callHost_eq]
  simp only [makeRoom, bind_assoc]

theorem isLua_hostFrame {f : Function} (hf : ∀ c, f ≠ .lua c) (slot argCount : Nat)
    (wanted : Option Nat) : (hostFrame f slot argCount wanted).isLua = false := by
  cases f with
  | lua c => exact absurd rfl (hf c)
  | _ => rfl

/-- A host function gets a frame above the lowest one of its strand. -/
theorem Machine.Steady.hostPushed (hm : m.Steady S ts) (hpos : ts ≠ [] → 0 < m.depth)
    (hslot : m.running.Floor slot) {f : Function} (hf : ∀ c, f ≠ .lua c) (argCount : Nat)
    (wanted : Option Nat) : (m.pushed (hostFrame f slot argCount wanted)).Steady S ts := by
  refine hm.pushed (fun c hc => ?_) fun howner => ⟨fun hnil => ?_, fun b fs hfs => ?_⟩
  · have hlua := isLua_hostFrame hf slot argCount wanted
    simp [Frame.isLua, hc] at hlua
  · have hlt := hpos (hm.owner_running.1 howner)
    rw [Machine.depth, ← Array.length_toList, hnil] at hlt
    simp at hlt
  · have hle := hslot howner b fs hfs
    exact ⟨hle, hle.trans (Nat.le_succ _), hle.trans (by simp only [hostFrame]; omega)⟩

section

variable (hS : IsCatalog S.program) {runl runr : Run} (hrun : S.Engines runl runr)
  {embedding : Embedding} {strict : Bool} (hembedding : ∀ name, Script (S.host strict) (embedding name))

include hS hrun hembedding

/-- Where host functions keep to the rules, one that has come to its end is on top of the frames that were
there, with the free slot in its own. -/
theorem runHost_paired (hm : m.Steady S ts) (hawake : S.Awake ts) (hpos : ts ≠ [] → 0 < m.depth)
    (hslot : m.running.Floor slot) {f : Function} (hf : ∀ c, f ≠ .lua c) (argCount : Nat)
    (wanted : Option Nat) :
    Paired (S.Ends ts m.depth m (fun _ m' => m.depth < m'.depth ∧ (S.honest = true →
          m'.running.frames.toList = m.running.frames.toList ++ [hostFrame f slot argCount wanted] ∧
            m'.Beyond (slot + 1)))
        (S.HostFails ts m.running.frames.toList slot wanted))
      (runHost embedding runl f slot argCount wanted m)
      (runHost embedding runr f slot argCount wanted m) := by
  obtain ⟨host, hhost⟩ : ∃ host, host = hostFrame f slot argCount wanted := ⟨_, rfl⟩
  have hroom : Orderly (S.between slot) (makeRoom slot argCount) := .makeRoom le_rfl argCount
  rw [runHost, runHost, ← hhost]
  have hplaced := hroom.sequence.ends_between hS m.depth hm hslot rfl
  refine (Paired.refl hplaced.never).bind fun _ m₁ heq₁ hm₁ hk₁ hfs₁ => ?_
  rw [Action.bind_ok (pushFrame_apply _ _), Action.bind_ok (pushFrame_apply _ _)]
  have hfs₂ : (m₁.pushed host).running.frames.toList = m.running.frames.toList ++ [host] := by
    rw [m₁.frames_pushed, hfs₁]
  have hdepth₁ : m₁.depth = m.depth := congrArg Array.size hfs₁
  have hdepth₂ : (m₁.pushed host).depth = m.depth + 1 := by
    rw [Machine.depth, ← Array.length_toList, hfs₂, List.length_append, Array.length_toList]
    rfl
  have hlua : host.isLua = false := hhost ▸ isLua_hostFrame hf slot argCount wanted
  have hm₂ : (m₁.pushed host).Steady S ts :=
    hhost ▸ hm₁.hostPushed (hdepth₁ ▸ hpos) (hk₁.floor_of_frames hfs₁ hslot) hf argCount wanted
  have hk₂ := Machine.keeps_pushed S m.depth m₁ host
  have hbeyond₂ : (m₁.pushed host).Beyond (slot + 1) := by
    have htop : m₁.running.top = slot + 1 + argCount :=
      (Action.Leaves.bind fun _ => .bind fun _ => Action.leaves_setTop _) m _ m₁ heq₁
    refine ⟨htop.ge.trans' (Nat.le_add_right ..), fun g hg => ?_⟩
    obtain rfl : host = g := by
      rw [topFrame?_of_append (m₁.frames_pushed host)] at hg
      exact Option.some.inj hg
    rw [hhost]
    simp only [hostFrame]
    omega
  generalize m₁.pushed host = m₂ at hfs₂ hdepth₂ hm₂ hk₂ hbeyond₂ ⊢
  have hseat : (S.host strict).Settled ts m₂.depth m₂ :=
    ⟨⟨le_rfl, fun _ => hdepth₂ ▸ Nat.succ_pos _⟩, fun hts => hdepth₂ ▸ Nat.succ_le_succ (hpos hts)⟩
  have hbody := (Script.hostBody rfl hembedding f).paired hS hrun hawake (fun _ => id) rfl hm₂ hseat
    ⟨fun _ => rfl, fun _ _ => hbeyond₂⟩
  refine hbody.imp fun _ hr => .after hk₂ ((hr.kept.lower (hdepth₂ ▸ Nat.le_succ _)).imp
    (fun _ m' hend => ⟨?_, fun hhonest => ?_⟩) fun e m' hfail he =>
      ⟨hawake, (hfail.2 he).1, fun hhonest => ?_⟩)
  · have hle := (hend.1.stands hseat.stands).depth
    omega
  · exact ⟨by rw [hend.2.frames hhonest, hfs₂], hend.2.beyond hhonest rfl⟩
  · obtain ⟨-, hts, hboundaries, hfs, hbeyond⟩ := (hfail.2 he).2 hhonest
    refine ⟨hts, hboundaries, hbeyond.top, host, by rw [hfs, hfs₂], hlua, ?_, ?_⟩ <;> rw [hhost] <;> rfl

theorem callHost_paired (hm : m.Steady S ts) (hawake : S.Awake ts) (hpos : ts ≠ [] → 0 < m.depth)
    (hslot : m.running.Floor slot) {f : Function} (hf : ∀ c, f ≠ .lua c) (argCount : Nat)
    (wanted : Option Nat) :
    Paired (S.Ends ts m.depth m (fun _ m' => S.honest = true → m'.running.frames = m.running.frames)
        (S.HostFails ts m.running.frames.toList slot wanted))
      (callHost embedding runl f slot argCount wanted m)
      (callHost embedding runr f slot argCount wanted m) := by
  rw [callHost_eq_runHost, callHost_eq_runHost]
  refine (runHost_paired hS hrun hembedding hm hawake hpos hslot hf argCount wanted).bind
    fun n m₃ _ hm₃ _ ⟨hdepth₃, hfs₃⟩ => ?_
  obtain ⟨fs, g, hfs, hlength⟩ := m₃.exists_append_frame (Nat.zero_lt_of_lt hdepth₃)
  have hlast (hts : ts ≠ []) (hnil : fs = []) : m₃.running.openCells = [] := by
    have := hpos hts
    rw [hnil, List.length_nil] at hlength
    omega
  refine .refl ((leaveFrame_ends hS hm₃ _ _ hfs hlast (by omega)).never.imp
    (fun _ m' h hhonest => ?_) fun _ _ => id)
  rw [(hfs₃ hhonest).1] at hfs
  exact Array.toList_inj.1 (h.trans (List.append_inj' hfs rfl).1.symm)

/-- How a call has started: a host function has come to its end, or there is a frame for a function of
the program. -/
def Regime.Started (S : Regime) (slot : Nat) (m : Machine) : CallOutcome → Machine → Prop
  | .done, m' => ¬ BodyAt slot m ∧ (S.honest = true → m'.running.frames = m.running.frames)
  | .pushed, m' => ∃ f, m'.running.frames.toList = m.running.frames.toList ++ [f]

theorem startCall_paired (hm : m.Steady S ts) (hslot : m.running.Floor slot) (argCount : Nat)
    {wanted : Option Nat} (hstart : S.Awake ts ∧ (ts ≠ [] → 0 < m.depth) ∨
      Regime.BodyAt slot m ∧ slot = 0 ∧ wanted = none) :
    Paired (S.Ends ts m.depth m (S.Started slot m) fun e m' => e = .yield →
        ¬ Regime.BodyAt slot m ∧ S.HostFails ts m.running.frames.toList slot wanted .yield m')
      (startCall embedding runl slot argCount wanted m)
      (startCall embedding runr slot argCount wanted m) := by
  have hresolve := resolveCall_ends hS hm hslot Limit.metaSteps argCount m.depth
  unfold startCall
  refine (Paired.refl hresolve.never).bind
    fun resolved m₁ _ hm₁ hk₁ hresolved => ?_
  obtain ⟨target, n⟩ := resolved
  obtain ⟨hfs₁, htarget, hbody⟩ := hresolved
  have hdepth₁ : m₁.depth = m.depth := congrArg Array.size hfs₁
  have hslot₁ := hk₁.floor_of_frames hfs₁ hslot
  cases target with
  | host f =>
    have hnot : ¬ Regime.BodyAt slot m := by
      rintro ⟨-, c, hc⟩
      simpa using hbody c hc
    obtain ⟨hawake, hpos⟩ := hstart.resolve_right fun h => hnot h.1
    have hcall := callHost_paired hS hrun hembedding hm₁ hawake (hdepth₁ ▸ hpos) hslot₁ htarget n
      wanted
    rw [hfs₁, hdepth₁] at hcall
    have hcall' := hcall.imp fun _ hr => hr.imp (fun _ _ => id) fun e m' hf =>
      show e = .yield → ¬ Regime.BodyAt slot m ∧
        S.HostFails ts m.running.frames.toList slot wanted .yield m' from
      fun he => ⟨hnot, he ▸ hf⟩
    exact hcall'.bind fun _ m₂ _ hm₂ _ hfs₂ => .refl (.pure hm₂ ⟨hnot, hfs₂⟩)
  | lua c unit =>
    have hroot (hts : ts ≠ []) (hnil : m₁.running.frames.toList = []) : slot = 0 ∧ wanted = none := by
      refine (hstart.resolve_left fun h => ?_).2
      have hlt := h.2 hts
      rw [← hdepth₁, Machine.depth, ← Array.length_toList, hnil] at hlt
      simp at hlt
    have henter := enterLua_ends hS hm₁ hslot₁ htarget.1 htarget.2 n hroot false m.depth
    rw [hfs₁] at henter
    exact .refl (henter.never.bind fun _ m₂ _ hm₂ _ hpushed => .pure hm₂ hpushed)

/-- How a call in place of the frame on top has started. -/
def Regime.Continued (S : Regime) (fs : List Frame) (m : Machine) : CallOutcome → Machine → Prop
  | .done, m' => m.Keeps S m.depth m' ∧ (S.honest = true → m'.running.frames = m.running.frames)
  | .pushed, m' => ∃ f, m'.running.frames.toList = fs ++ [f]

theorem startTailCall_paired (hm : m.Steady S ts) (hawake : S.Awake ts) {f : Frame}
    (hfs : m.running.frames.toList = fs ++ [f]) (hslot : m.running.Floor slot) (argCount : Nat) :
    Paired (S.Ends ts fs.length m (S.Continued fs m)
        (S.HostFails ts m.running.frames.toList slot none))
      (startTailCall embedding runl slot argCount m)
      (startTailCall embedding runr slot argCount m) := by
  unfold startTailCall
  have hdepth : m.depth = fs.length + 1 := by
    rw [Machine.depth, ← Array.length_toList, hfs, List.length_append, List.length_singleton]
  have hlower : fs.length ≤ m.depth := hdepth ▸ Nat.le_succ _
  have hresolve := (resolveCall_ends hS hm hslot Limit.metaSteps argCount m.depth).kept.lower hlower
  refine (Paired.refl (hresolve.imp (fun _ _ => id) fun _ _ => And.right).never).bind
    fun resolved m₁ _ hm₁ _ hresolved => ?_
  obtain ⟨target, n⟩ := resolved
  obtain ⟨hk₁, hfs₁, htarget, -⟩ := hresolved
  have hdepth₁ : m₁.depth = m.depth := congrArg Array.size hfs₁
  cases target with
  | host g =>
    have hcall := callHost_paired hS hrun hembedding hm₁ hawake
      (fun _ => hdepth₁ ▸ hdepth ▸ Nat.succ_pos _) (hk₁.floor_of_frames hfs₁ hslot) htarget n none
    rw [hfs₁, hdepth₁] at hcall
    refine (hcall.imp fun r hr => (hr.kept.imp (fun _ _ => id) fun _ _ => And.right).lower hlower).bind
      fun _ m₂ _ hm₂ _ hended => .refl (.pure hm₂ ⟨hk₁.trans hended.1, hended.2⟩)
  | lua c unit =>
    have hreplace := replaceFrame_ends hS hm₁ (hfs₁ ▸ hfs) htarget.1 htarget.2 slot n le_rfl
    exact .refl (hreplace.never.bind fun _ m₂ _ hm₂ _ hpushed => .pure hm₂ hpushed)

end

end LuaMachine
