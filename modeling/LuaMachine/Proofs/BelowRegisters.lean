import LuaMachine.Proofs.StepFrames

/-!
What lies below the registers of a frame. The frame itself writes there only through upvalues, from when it is
entered until it returns or gives way to another one: operations use its registers, and whatever they have
called is placed above these.
-/

namespace LuaMachine

variable {C : Custody} {R : Conduct} {ts : List CoroutineId} {m m' : Machine} {L : Lease}
  {d j x y z after n slot fuel base i : Nat} {a : Activation} {f : Frame} {fs : List Frame} {c : ClosureId}
  {w : Window} {v : Value} {α : Type}

theorem Machine.le_callBase_of_lua (hf : m.topFrame? = some f) (hlua : f.isLua = true) :
    f.top ≤ m.callBase := by
  simp [callBase, hf, hlua]

/-- The frame at work once the place after an instruction is saved. -/
theorem Regime.AtWork.advanced {S : Regime} (hhonest : S.honest = true) (h : S.AtWork d j a m f c) (pc : Nat) :
    S.AtWork d j a (m.atPc pc) { f with pc := pc } c := by
  obtain ⟨fs, hfs, -⟩ := h.exists_frames hhonest
  obtain ⟨f', h', -⟩ := h.atPc pc
  obtain ⟨fs', hfs', -⟩ := h'.exists_frames hhonest
  have hsame := (List.append_inj' (hfs'.symm.trans (Setting.toList_frames_atPc hfs pc)) rfl).2
  exact List.singleton_inj.1 hsame ▸ h'

/-! Operations -/

/-- A script of a frame keeps to what it may free, if all that is called is placed above that. -/
theorem Tame.tends_code (hS : IsCatalog C.program) {run : Run} (hrun : C.Minds run)
    (hawake : C.toRegime.Awake ts) (hprogram : ∀ p, R.program p → C.program p) (hhonest : R.honest = C.honest)
    (hh : C.honest = true) (hcode : R.seat = .code base) {x : Run → Action α} (h : Tame R C.Strict x)
    (hm : m.Steady C.toRegime ts) (hseat : R.Settled ts d m) (hk : m.Kempt C.honest C.bounded)
    (hL : m.Leased C.honest C.bounded L) (hle : L.floor ≤ base) (hdepth : L.depth ≤ d) {frames : Array Frame}
    (hframes : m.running.frames = frames)
    (hbase : ∀ m' : Machine, m'.running.frames = frames → L.floor ≤ m'.callBase) : C.Tends L m (x run m) := by
  have hfrees (i : Nat) (hi : R.seat.Frees i) : L.floor ≤ i := by
    rw [hcode] at hi
    exact hle.trans hi
  exact h.tends_where hS hrun hawake hprogram hhonest hm hseat hk hL hfrees hdepth
    (P := fun m => m.running.frames = frames) hframes
    (fun _ _ hframes hstays => (hstays.frames hh).trans hframes) (fun m hframes _ _ => hbase m hframes)
    fun _ _ _ _ hhost => absurd hhost (by simp [hcode])

section

variable (hS : IsCatalog C.program) {run : Run} (hrun : C.Minds run) (hawake : C.toRegime.Awake ts)
  (hm : m.Steady C.toRegime ts) (hk : m.Kempt C.honest C.bounded) (hL : m.Leased C.honest C.bounded L)

include hS hrun hawake hm hk hL

/-- Operations that do not call write nothing below the registers, but for upvalues. -/
theorem Regime.AtWork.operation_tends {embedding : Embedding} (hh : C.honest = true)
    (h : C.toRegime.AtWork d j a m f c) (hwindow : f.base ≤ f.top) (hle : L.floor ≤ a.window.base)
    (hdepth : L.depth ≤ j + 1) {op : Operation} (hop : op.isControl = false)
    (hassign : ∀ x y, op ≠ .setUpval x y) (hclosure : ∀ x child cs, op ≠ .closure x child cs) :
    C.Tends L m (perform embedding run a.window op m) := by
  obtain ⟨R, hR⟩ : ∃ R : Conduct, R = ⟨C.program, .code a.window.base, C.honest, false⟩ := ⟨_, rfl⟩
  have hcode : R.seat = .code a.window.base := by rw [hR]
  obtain ⟨fs, hfs, -⟩ := h.exists_frames hh
  have hbase (m' : Machine) (hframes : m'.running.frames = m.running.frames) : L.floor ≤ m'.callBase := by
    have htop : m'.topFrame? = some f := topFrame?_of_append (hframes ▸ hfs)
    have hcall := Machine.le_callBase_of_lua htop (Frame.isLua_of_closure? h.closure)
    exact hle.trans ((h.base.le.trans hwindow).trans hcall)
  exact (Tame.perform (R := R) embedding hcode hop hassign hclosure).tends_code hS hrun hawake
    (by rw [hR]; exact fun _ => id) (by rw [hR]) hh hcode hm (h.settled hm hcode) hk hL hle hdepth rfl hbase

omit hL in
/-- So do the steps in which they are performed. -/
theorem Regime.AtWork.stepOperation_tends {embedding : Embedding} (hh : C.honest = true)
    (h : C.toRegime.AtWork d j a m f c) (hwindow : f.base ≤ f.top) {op : Operation}
    (hfetch : a.fetch? = some ⟨op, after⟩) (hop : op.isControl = false)
    (hassign : ∀ x y, op ≠ .setUpval x y) (hclosure : ∀ x child cs, op ≠ .closure x child cs) :
    C.Tends ⟨m.depth, a.window.base, m.running.openCells⟩ m (step embedding run a m) := by
  have hdepth : (m.atPc (a.pc + 1)).depth = m.depth := Array.size_modify
  refine step_tends_of_perform hm h hfetch ?_
  exact (h.advanced hh (a.pc + 1)).operation_tends hS hrun hawake (hm.atPc (a.pc + 1))
    (hk.atPc (Nat.zero_lt_of_lt h.lt_depth) (a.pc + 1)) (.fresh _ hdepth.le rfl) hh hwindow le_rfl
    (h.top hh).le hop hassign hclosure

/-- What a tail call calls is a Lua function, which takes the place of the one that calls it. -/
def Window.EntersLua (w : Window) (x y : Nat) (m : Machine) : Prop :=
  ∃ n m₁ c unit k m₂, w.callArgs x y m = .ok n m₁ ∧
    resolveCall (w.base + x) Limit.metaSteps n m₁ = .ok (.lua c unit, k) m₂

/-- A tail call of a host function writes nothing below the called value. -/
theorem performTailCall_tends {embedding : Embedding} {strict : Bool}
    (hembedding : ∀ name, Tame (C.toRegime.host strict) C.Strict (embedding name))
    (hd : ts ≠ [] → 0 < m.depth) (hdepth : L.depth ≤ m.depth) (hslot : m.running.Floor (w.base + x))
    (hle : L.floor ≤ w.base + x) (hhost : ¬ w.EntersLua x y m) :
    C.Tends L m (perform embedding run w (.tailCall x y) m) := by
  have hargs : Orderly (C.toRegime.between (w.base + x)) (w.callArgs x y) := .callArgs le_rfl y
  refine (hargs.tends_between hS hle hm hslot hk hL).bind hm (hargs.sequence.ends_between hS m.depth hm hslot rfl)
    fun n m₁ heq₁ hm₁ hk₁ hfs₁ hkempt₁ hL₁ => ?_
  have hdepth₁ : m₁.depth = m.depth := congrArg Array.size hfs₁
  have hslot₁ := hk₁.floor_of_frames hfs₁ hslot
  rw [← bind_pure_comp]
  unfold startTailCall
  rw [bind_assoc]
  refine (resolveCall_tends hS hm₁ hkempt₁ hL₁ hslot₁ hle _ _).bind hm₁
    (resolveCall_ends hS hm₁ hslot₁ Limit.metaSteps n m₁.depth)
    fun resolved m₂ heq₂ hm₂ hk₂ hresolved hkempt₂ hL₂ => ?_
  obtain ⟨target, k⟩ := resolved
  obtain ⟨hfs₂, htarget, -⟩ := hresolved
  have hdepth₂ : m₂.depth = m.depth := (congrArg Array.size hfs₂).trans hdepth₁
  cases target with
  | lua c unit => exact absurd ⟨n, m₁, c, unit, k, m₂, heq₁, heq₂⟩ hhost
  | host g =>
    have hpos : ts ≠ [] → 0 < m₂.depth := hdepth₂ ▸ hd
    have hslot₂ := hk₂.floor_of_frames hfs₂ hslot₁
    change C.Tends L m₂ (((callHost embedding run g (w.base + x) k none >>= fun _ => pure CallOutcome.done) >>=
      fun o => pure o.flow) m₂)
    rw [bind_assoc]
    have hcall := callHost_tends hS hrun hembedding hm₂ hkempt₂ hL₂ hawake hpos (hdepth₂ ▸ hdepth) hslot₂ hle
      htarget k none
    have hends := (callHost_paired hS hrun.engines (fun name => (hembedding name).script) hm₂ hawake hpos hslot₂
      htarget k none).right
    exact hcall.bind hm₂ hends fun _ _ _ _ _ _ hk₃ hL₃ => .stay hk₃ hL₃ rfl

omit hL in
/-- So does the step in which a frame makes it. -/
theorem stepTailCall_tends {embedding : Embedding} {strict : Bool}
    (hembedding : ∀ name, Tame (C.toRegime.host strict) C.Strict (embedding name))
    (h : C.toRegime.AtWork d j a m f c) (hfetch : a.fetch? = some ⟨.tailCall x y, after⟩)
    (hhost : ¬ a.window.EntersLua x y (m.atPc (a.pc + 1))) :
    C.Tends ⟨m.depth, a.window.base + x, m.running.openCells⟩ m (step embedding run a m) := by
  have hpos := Nat.zero_lt_of_lt h.lt_depth
  have hdepth : (m.atPc (a.pc + 1)).depth = m.depth := Array.size_modify
  have hm₁ := hm.atPc (a.pc + 1)
  obtain ⟨f₁, h₁, -⟩ := h.atPc (a.pc + 1)
  exact step_tends_of_perform hm h hfetch (performTailCall_tends hS hrun hawake hm₁ (hk.atPc hpos (a.pc + 1))
    (.fresh _ hdepth.le rfl) hembedding (fun _ => hdepth.symm ▸ hpos) hdepth.ge
    ((h₁.floor hm₁).mono (Nat.le_add_right _ x)) le_rfl hhost)

end

/-! Steps -/

/-- The frame at work returns, or gives way to a Lua function that it calls. -/
def Activation.Leaves (a : Activation) (m : Machine) : Prop :=
  (∃ x y after, a.fetch? = some ⟨.ret x y, after⟩) ∨
    ∃ x y after, a.fetch? = some ⟨.tailCall x y, after⟩ ∧ a.window.EntersLua x y (m.atPc (a.pc + 1))

/-- After a step the frame at work is on top, unless it has left or called a function. -/
theorem Activation.leaves_of_step {embedding : Embedding} {run : Run} (hp : a.Portable)
    (h : step embedding run a m = .ok none m') :
    a.Leaves m ∨ ∃ x y z after, a.fetch? = some ⟨.call x y z, after⟩ := by
  cases hfetch : a.fetch? with
  | none =>
    obtain ⟨e, m₁, hfails, -⟩ := Activation.step_of_fetch_none embedding hp hfetch m
    cases (hfails run).symm.trans h
  | some fetched =>
    obtain ⟨op, after⟩ := fetched
    rw [step_of_fetch embedding run hfetch] at h
    cases hperform : perform embedding run a.window op (m.atPc (a.pc + 1)) with
    | error e m₁ =>
      rw [hperform] at h
      cases h
    | ok flow m₁ =>
      rw [hperform] at h
      obtain rfl : flow = .leave := by
        have htarget := (EStateM.Result.ok.inj h).1
        cases flow <;> first | rfl | cases htarget
      have hcontrol : op.isControl = true := perform_within embedding run a.window op a.pc _ _ _ hperform
      cases op with
      | call x y z => exact .inr ⟨x, y, z, after, rfl⟩
      | tailCall x y =>
        obtain ⟨n, m₂, o, hargs, hstart, hflow⟩ := perform_tailCall_eq_ok hperform
        obtain ⟨⟨target, k⟩, m₃, hresolve, hstart⟩ := Action.bind_eq_ok.1 hstart
        cases target with
        | host f =>
          obtain ⟨_, m₄, -, hdone⟩ := Action.bind_eq_ok.1 hstart
          obtain ⟨rfl, -⟩ := EStateM.Result.ok.inj hdone
          cases hflow
        | lua c unit => exact .inl (.inr ⟨x, y, after, hfetch, n, m₂, c, unit, k, m₃, hargs, hresolve⟩)
      | ret x y => exact .inl (.inl ⟨x, y, after, hfetch⟩)
      | _ => simp [Operation.isControl] at hcontrol

theorem Activation.state_step_of_fetch {fetched : Fetched} (hfetch : a.fetch? = some fetched)
    (embedding : Embedding) (run : Run) (m : Machine) :
    Outcome.state (step embedding run a m) =
      Outcome.state (perform embedding run a.window fetched.operation (m.atPc (a.pc + 1))) := by
  rw [step_of_fetch embedding run hfetch]
  cases perform embedding run a.window fetched.operation (m.atPc (a.pc + 1)) <;> rfl

theorem Machine.slot?_atPc (pc : Nat) (o : Owner) (i : Nat) : (m.atPc pc).slot? o i = m.slot? o i := by
  apply slot?_congr <;> rfl

/-- An assignment through an upvalue changes no other slot. -/
theorem Activation.setUpval_lasts (hfetch : a.fetch? = some ⟨.setUpval x y, after⟩)
    (embedding : Embedding) (run : Run) (hassign : ¬ a.Assigns m m.running.owner i)
    (hv : m.slot? m.running.owner i = some v) :
    (Outcome.state (step embedding run a m)).slot? m.running.owner i = some v := by
  rw [state_step_of_fetch hfetch]
  rw [← Machine.slot?_atPc (a.pc + 1)] at hv
  rcases a.window.state_performSetUpval x y (m.atPc (a.pc + 1)) embedding run with hsame | ⟨cell, w, hcell, hset⟩
  · rwa [hsame]
  · have hnot : (m.atPc (a.pc + 1)).heap.cell cell ≠ .opened m.running.owner i := fun hopened =>
      hassign ⟨x, y, after, cell, hfetch, hcell, hopened⟩
    rwa [hset, Machine.slot?_setCellValue hnot]

/-- Making a closure writes a register. -/
theorem Activation.closure_lasts {child : Nat} {cs : List Capture}
    (hfetch : a.fetch? = some ⟨.closure x child cs, after⟩) (embedding : Embedding) (run : Run)
    (hi : i < a.window.base) (hv : m.slot? m.running.owner i = some v) :
    (Outcome.state (step embedding run a m)).slot? m.running.owner i = some v := by
  rw [state_step_of_fetch hfetch]
  have hconfined : Confined (.code a.window.base) (fun _ => True)
      (perform embedding run a.window (.closure x child cs)) :=
    .performClosure rfl x child fun _ _ => trivial
  rw [← Machine.slot?_atPc (a.pc + 1)] at hv
  exact (hconfined (m.atPc (a.pc + 1)) a.window.base nofun fun _ => id).retains _ i v (fun _ => hi) hv

section

variable {U : Prototype → Prop} (hU : IsCatalog U) {strict : Bool} {embedding : Embedding}
  (hm : m.Steady ⟨U, true, fun _ => False⟩ ts) (hk : m.Kempt true false)
  (h : Regime.AtWork ⟨U, true, fun _ => False⟩ d j a m f c) (hwindow : f.base ≤ f.top)

include hU hm hk h hwindow

/-- Until a frame leaves, what lies below its registers has the same value after its steps, unless something is
assigned to it through an upvalue. -/
theorem Regime.AtWork.lasts_below (hosts : ∀ name, Tame ⟨U, .host, true, strict⟩ True (embedding name))
    (hstays : ¬ a.Leaves m) (hi : i < a.window.base)
    (hassigns : ¬ Stage.Assigns embedding m.running.owner i ⟨fuel + 1, .proceed d a, m⟩)
    (hv : m.slot? m.running.owner i = some v) :
    (Outcome.state (step embedding (run embedding fuel) a m)).slot? m.running.owner i = some v := by
  have halways : Always embedding (fun t => ¬ t.Assigns m.running.owner i) fuel
      (fun run => step embedding run a) m :=
    not_not.1 fun hnot => hassigns ⟨fuel, d, a, rfl, rfl, .inr hnot⟩
  have hassign : ¬ a.Assigns m m.running.owner i := fun hnot => hassigns ⟨fuel, d, a, rfl, rfl, .inl hnot⟩
  have hlasts {L : Lease} (hi : i < L.floor) (htends : ∀ {P : Machine → Prop},
      let C := Custody.ofSlot ⟨U, true, fun _ => False⟩ m.running.owner i
      let run := watched embedding (haltAt (HaltsAt P m.running.owner i)) fuel
      C.Minds run → C.Tends L m (step embedding run a m)) :
      (Outcome.state (step embedding (run embedding fuel) a m)).slot? m.running.owner i = some v := by
    have hlasts : Lasts embedding fuel (fun _ => False) m.running.owner i (fun run => step embedding run a) m :=
      lasts_of_tends hU hosts hi fun _ _ hminds => htends hminds
    exact hlasts.of_always halways hv
  cases hfetch : a.fetch? with
  | none =>
    obtain ⟨e, m', hstep, rfl | rfl⟩ := Activation.step_of_fetch_none embedding h.portable hfetch m
    · rwa [hstep]
    · rwa [hstep, Outcome.state, Machine.slot?_atPc]
  | some fetched =>
    obtain ⟨op, after⟩ := fetched
    by_cases hop : op.isControl = true
    · cases op with
      | call x y z =>
        exact h.call_lasts hU hm hk hfetch hosts (hi.trans_le (Nat.le_add_right ..)) hv hassigns
      | tailCall x y =>
        have hlt : i < a.window.base + x := hi.trans_le (Nat.le_add_right ..)
        exact hlasts (L := ⟨m.depth, a.window.base + x, m.running.openCells⟩) hlt fun hminds =>
          stepTailCall_tends hU hminds (fun _ _ => id) hm hk (Custody.hosts_ofSlot hosts _ i) h hfetch
            fun henters => hstays (.inr ⟨x, y, after, hfetch, henters⟩)
      | ret x y => exact absurd (.inl ⟨x, y, after, hfetch⟩) hstays
      | _ => simp [Operation.isControl] at hop
    · have htame (hset : ∀ x y, op ≠ .setUpval x y) (hclosure : ∀ x child cs, op ≠ .closure x child cs) :=
        hlasts hi fun hminds => h.stepOperation_tends hU hminds (fun _ _ => id) hm hk rfl hwindow hfetch
          (Bool.not_eq_true _ ▸ hop) hset hclosure
      cases op with
      | setUpval x y => exact Activation.setUpval_lasts hfetch embedding _ hassign hv
      | closure x child cs => exact Activation.closure_lasts hfetch embedding _ hi hv
      | _ => exact htame (by simp) (by simp)

end

end LuaMachine
