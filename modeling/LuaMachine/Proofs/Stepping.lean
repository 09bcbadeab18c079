import LuaMachine.Proofs.Calling
import LuaMachine.Proofs.FrameStep

/-!
A step of a frame leaves the chain of resumptions as it is. A coroutine stops in a host function only
where it may be finished later: at the `CALL` or `TAILCALL` of the frame below.
-/

namespace LuaMachine

variable {S : Regime} {ts : List CoroutineId} {m m' : Machine} {d j : Nat} {a : Activation} {f : Frame}
  {c : ClosureId}

/-- What awaits the results of a host function is a call or a tail call. -/
theorem Operation.awaits_ofInstruction {i : Instruction} {op : Opcode} {pc batch r : Nat}
    {captures : List Capture} {wanted : Option Nat}
    (h : (ofInstruction i op pc batch captures).awaits = some (r, wanted)) :
    r = i.a ∧ (op = .call ∧ wanted = (if i.c = 0 then none else some (i.c - 1)) ∨
      op = .tailCall ∧ wanted = none) := by
  cases op <;> simp only [ofInstruction, awaits, reduceCtorEq, Option.some.injEq, Prod.mk.injEq] at h
  · exact ⟨h.1.symm, .inl ⟨rfl, h.2.symm⟩⟩
  · exact ⟨h.1.symm, .inr ⟨rfl, h.2.symm⟩⟩

/-- What is fetched stands for an instruction of the code, whatever its operand words say. Compiled
code can be entered behind a `CALL`, where code follows. -/
theorem Activation.exists_word {p : Prototype} {fetched : Fetched}
    (hp : a.window.closure.proto = p)
    (hengine : a.engine = .interpreter ∨ ∃ u, a.engine = .threaded u ∧ p.IsUnit u)
    (h : a.fetch? = some fetched) : ∃ word op batch captures, p.code[a.pc]? = some word ∧
      (⟨word⟩ : Instruction).opcode? = some op ∧
      fetched.operation = .ofInstruction ⟨word⟩ op a.pc batch captures ∧
      ∀ u, a.engine = .threaded u → op = .call → a.pc + 1 < p.code.size →
        u.lowered.isEntry (a.pc + 1) = true := by
  obtain ⟨w, engine, pc⟩ := a
  subst hp
  rcases hengine with rfl | ⟨u, rfl, hu⟩
  · simp only [fetch?] at h
    cases hw : w.closure.proto.code[pc]? with
    | none => simp [hw] at h
    | some word =>
      refine ⟨word, ?_⟩
      cases hd : w.closure.proto.decode pc word with
      | error e => simp [hw, hd] at h
      | ok f' =>
        obtain rfl : f' = fetched := by simpa [hw, hd] using h
        simp only [Prototype.decode] at hd
        split at hd
        · cases hd
        · next hop =>
          obtain rfl := Except.ok.inj hd
          exact ⟨_, _, [], rfl, hop, rfl, by simp⟩
        · next hop =>
          split at hd
          · cases hd
          · split at hd
            · cases hd
            · obtain rfl := Except.ok.inj hd
              exact ⟨_, 0, _, rfl, hop, rfl, by simp⟩
        · next op _ _ hop =>
          obtain rfl := Except.ok.inj hd
          exact ⟨op, 0, [], rfl, hop, rfl, by simp⟩
  · have hlowers := Prototype.lowersTo_of_lower hu.lower
    simp only [fetch?] at h
    cases hget : u.lowered.operations[pc]? with
    | none => simp [hget] at h
    | some operation =>
      simp only [hget] at h
      split_ifs at h with hdata
      obtain rfl := Option.some.inj h
      have hlt : pc < w.closure.proto.code.size :=
        hlowers.size ▸ (Array.getElem?_eq_some_iff.1 hget).1
      rcases Prototype.isInstruction_or_isOperand hlt with hi | hoperand
      · obtain ⟨word, hw⟩ := hi.exists_word
        obtain ⟨op, hop, -, -, hoperation, -⟩ := hlowers.instruction hi hw
        obtain rfl := Option.some.inj (hget.symm.trans hoperation)
        refine ⟨word, op, _, _, hw, hop, rfl, fun u' hu' hcall hnext => ?_⟩
        obtain rfl := Engine.threaded.inj hu'
        exact (hlowers.isEntry _).2 ⟨hnext, .inr ⟨pc, word, op, rfl, hi, hw, hop, hcall⟩⟩
      · exact absurd (Option.some.inj (hget.symm.trans (hlowers.data hoperand))) hdata

/-! The place in the frame on top -/

theorem Machine.Steady.atPc (hm : m.Steady S ts) (pc : Nat) : (m.atPc pc).Steady S ts := by
  rcases Nat.eq_zero_or_pos m.depth with hzero | hpos
  · have hempty : m.running.frames = #[] := Array.size_eq_zero_iff.1 hzero
    have hsame : (m.atPc pc).running.frames = m.running.frames := by
      refine Array.eq_empty_of_size_eq_zero ?_ |>.trans hempty.symm
      exact Array.size_modify.trans hzero
    refine hm.congr rfl rfl rfl rfl (hm.tidy_running.mk' rfl rfl (hsame ▸ hm.tidy_running.frames)
      fun howner => ⟨fun _ => ?_, fun b fs hf => ?_⟩)
    · exact (hm.tidy_running.grounded howner).bare (by rw [hempty])
    · simp [hsame, hempty] at hf
  · obtain ⟨fs, g, hfs, -⟩ := m.exists_append_frame hpos
    have hframes := Setting.toList_frames_atPc hfs pc
    refine hm.congr rfl rfl rfl rfl (hm.tidy_running.mk' rfl rfl (fun f hf => ?_) fun howner => ?_)
    · rw [hframes] at hf
      rcases List.mem_append.1 hf with hf | hf
      · exact hm.tidy_running.frames f (hfs ▸ List.mem_append_left _ hf)
      · obtain rfl := List.mem_singleton.1 hf
        exact hm.tidy_running.frames g (hfs ▸ by simp)
    · obtain ⟨-, hrooted⟩ := hm.tidy_running.grounded howner
      refine ⟨fun hf => by simp [hframes] at hf, fun b fs' hf => ?_⟩
      rw [hframes] at hf
      cases fs with
      | nil =>
        obtain ⟨rfl, rfl⟩ := List.cons.inj hf
        exact { hrooted g [] hfs with }
      | cons b' fs =>
        obtain ⟨rfl, rfl⟩ := List.cons.inj hf
        have hroot := hrooted b' (fs ++ [g]) hfs
        refine { hroot with frames := fun f hf => ?_ }
        rcases List.mem_append.1 hf with hf | hf
        · exact hroot.frames f (List.mem_append_left _ hf)
        · obtain rfl := List.mem_singleton.1 hf
          exact { hroot.frames g (by simp) with }

namespace Regime.AtWork

theorem lt_depth (h : S.AtWork d j a m f c) : j < m.depth := by
  rw [Machine.depth, ← Array.length_toList]
  exact (List.getElem?_eq_some_iff.1 h.frame).1

theorem lt_closures (hm : m.Steady S ts) (h : S.AtWork d j a m f c) :
    c.index < m.heap.closures.size :=
  (hm.tidy_running.frames f (List.mem_of_getElem? h.frame) c h.closure).1

/-- The frames end in one on top. It is the one at work where host functions keep to the rules, and where
it is the only one. -/
theorem exists_top (h : S.AtWork d j a m f c) : ∃ fs g, m.running.frames.toList = fs ++ [g] ∧
    d ≤ fs.length ∧ (S.honest = true → g = f ∧ fs.length = j) ∧ (fs = [] → g = f) := by
  obtain ⟨fs, g, hfs, hlength⟩ := m.exists_append_frame (Nat.zero_lt_of_lt h.lt_depth)
  have hj := h.lt_depth
  have hdj := h.depth
  have htop (heq : j = fs.length) : g = f := by simpa [hfs, heq] using h.frame
  refine ⟨fs, g, hfs, by omega, fun hhonest => ?_, ?_⟩
  · have heq : j = fs.length := Nat.succ.inj ((h.top hhonest).symm.trans hlength.symm)
    exact ⟨htop heq, heq.symm⟩
  · rintro rfl
    exact htop (by rw [List.length_nil] at hlength ⊢; omega)

/-- Where host functions keep to the rules, the frame at work is the one on top. -/
theorem exists_frames (hhonest : S.honest = true) (h : S.AtWork d j a m f c) :
    ∃ fs, m.running.frames.toList = fs ++ [f] ∧ fs.length = j := by
  obtain ⟨fs, g, hfs, -, htop, -⟩ := h.exists_top
  obtain ⟨rfl, hlength⟩ := htop hhonest
  exact ⟨fs, hfs, hlength⟩

theorem keeps_atPc (h : S.AtWork d j a m f c) (pc : Nat) : m.Keeps S d (m.atPc pc) := by
  obtain ⟨fs, g, hfs, hd, -⟩ := h.exists_top
  refine .of_running rfl rfl rfl rfl rfl ?_
  rw [Setting.toList_frames_atPc hfs, hfs, List.take_append_of_le_length hd]
  exact (List.take_prefix d fs).trans (List.prefix_append ..)

/-- The place of the frame on top is saved, which is the one at work unless there are others. -/
theorem atPc (h : S.AtWork d j a m f c) (pc : Nat) :
    ∃ f', S.AtWork d j a (m.atPc pc) f' c ∧ (S.honest = true → f'.pc = pc) := by
  obtain ⟨fs, g, hfs, hlength⟩ := m.exists_append_frame (Nat.zero_lt_of_lt h.lt_depth)
  have hframes := Setting.toList_frames_atPc hfs pc
  have hdepth : (m.atPc pc).depth = m.depth := Array.size_modify
  have hframe := h.frame
  rw [hfs] at hframe
  rcases Nat.lt_or_ge j fs.length with hj | hj
  · rw [List.getElem?_append_left hj] at hframe
    refine ⟨f, { h with frame := ?_, top := hdepth ▸ h.top }, fun hhonest => ?_⟩
    · rw [hframes, List.getElem?_append_left hj, hframe]
    · have htop := h.top hhonest
      omega
  · obtain rfl : j = fs.length := by
      have hlt := h.lt_depth
      omega
    obtain rfl : g = f := by simpa using hframe
    refine ⟨{ g with pc := pc }, ⟨?_, h.depth, h.closure, h.base, h.proto, h.engine, h.unit,
      hdepth ▸ h.top⟩, fun _ => rfl⟩
    rw [hframes, List.getElem?_concat_length]

/-- The frame is interpreted or threaded. -/
theorem portable (h : S.AtWork d j a m f c) : a.Portable := by
  unfold Activation.Portable
  rcases h.engine with he | ⟨u, he, -⟩ <;> rw [he] <;> trivial

/-- The frame is still at work where it and the frames below it are kept. -/
theorem after (hm : m.Steady S ts) (h : S.AtWork d j a m f c) (hk : m.Keeps S (j + 1) m')
    (hfs : S.honest = true → m'.running.frames = m.running.frames) : S.AtWork d j a m' f c where
  frame := by
    have hlt : j < (m.running.frames.toList.take (j + 1)).length := by
      rw [List.length_take, Array.length_toList]
      exact lt_min (Nat.lt_succ_self j) h.lt_depth
    obtain ⟨rest, hrest⟩ := hk.frames
    rw [← hrest, List.getElem?_append_left hlt, List.getElem?_take_of_lt (Nat.lt_succ_self j), h.frame]
  depth := h.depth
  closure := h.closure
  base := h.base
  proto := h.proto.trans (hk.extend.proto (h.lt_closures hm)).symm
  engine := by
    rw [hk.extend.proto (h.lt_closures hm)]
    exact h.engine
  unit := h.unit
  top hhonest := by
    rw [Machine.depth, hfs hhonest]
    exact h.top hhonest

theorem floor (hm : m.Steady S ts) (h : S.AtWork d j a m f c) : m.running.Floor a.window.base := by
  intro howner b fs hfs
  have hroot := (hm.tidy_running.grounded howner).rooted b fs hfs
  have hframe := h.frame
  rw [h.base]
  rw [hfs] at hframe
  cases j with
  | zero =>
    obtain rfl : b = f := by simpa using hframe
    exact le_rfl
  | succ j => exact (hroot.frames f (List.mem_of_getElem? hframe)).base

theorem settled (hm : m.Steady S ts) (h : S.AtWork d j a m f c) {R : Conduct}
    (hseat : R.seat = .code a.window.base) : R.Settled ts (j + 1) m := by
  refine ⟨⟨h.lt_depth, fun _ => Nat.succ_pos j⟩, ?_⟩
  rw [hseat]
  exact h.floor hm

end Regime.AtWork

/-! Performing an operation -/

namespace Regime

/-- An operation performed over given frames fails. It yields in a host function it has called. -/
def OperationFails (S : Regime) (ts : List CoroutineId) (fs : Array Frame) (base : Nat)
    (op : Operation) (e : Fault) (m : Machine) : Prop :=
  e = .yield → S.Awake ts ∧ (ts ≠ [] → 2 ≤ m.depth) ∧ (S.honest = true →
    ∃ r wanted, op.awaits = some (r, wanted) ∧ S.HostFails ts fs.toList (base + r) wanted .yield m)

/-- Unless there is another frame to go on with, the frame is still at work. -/
def Performed (S : Regime) (d j : Nat) (a : Activation) (c : ClosureId) (flow : Flow) (m : Machine) :
    Prop :=
  flow ≠ .leave → ∃ f, S.AtWork d j a m f c

/-- The outcome of a step: how the frame goes on, if it does. -/
def Stepped (S : Regime) (d : Nat) (o : Option Activation) (m : Machine) : Prop :=
  ∀ a, o = some a → ∃ j f c, S.AtWork d j a m f c

variable {fs : Array Frame} {base : Nat} {op : Operation} {e : Fault}

/-- Basic actions of an operation, and calls it makes in between, do not yield but where host functions
do not keep to the rules. -/
theorem Fails.operation {k : Nat} (hawake : S.Awake ts) (h : S.Fails (.code base) ts fs k e m) :
    S.OperationFails ts fs base op e m :=
  fun he => ⟨hawake, (h he).1, fun hhonest => nomatch ((h he).2 hhonest).1⟩

theorem HostFails.operation (op : Operation) {r : Nat} {wanted : Option Nat} {fs' : Array Frame}
    (hop : op.awaits = some (r, wanted)) (hfs : S.honest = true → fs' = fs)
    (h : S.HostFails ts fs'.toList (base + r) wanted e m) : S.OperationFails ts fs base op e m := by
  rintro rfl
  exact ⟨(h rfl).1, (h rfl).2.1, fun hhonest => ⟨r, wanted, hop, hfs hhonest ▸ h⟩⟩

end Regime

/-- A host function that the frame at work has called yields. -/
theorem Regime.AtWork.suspends {fetched : Fetched} {e : Fault} (hm : m.Steady S ts)
    (h : S.AtWork d j a m f c) (hpc : S.honest = true → f.pc = a.pc + 1)
    (hfetch : a.fetch? = some fetched) (hx : m.heap.Extends m'.heap)
    (hfail : S.OperationFails ts m.running.frames a.window.base fetched.operation e m')
    (he : e = .yield) : S.Suspends ts m' := by
  obtain ⟨hawake, hframes, hhonest⟩ := hfail he
  refine ⟨hawake, hframes, fun hS => ?_⟩
  obtain ⟨r, wanted, hop, hyield⟩ := hhonest hS
  obtain ⟨hts, hboundaries, htop, host, hfs, hhost, hslot, hwanted⟩ := (hyield rfl).2.2 hS
  obtain ⟨word, op, batch, captures, hword, hopcode, hoperation, hentry⟩ :=
    Activation.exists_word h.proto h.engine hfetch
  rw [hoperation] at hop
  obtain ⟨rfl, hcall⟩ := Operation.awaits_ofInstruction hop
  obtain ⟨fs, hold, -⟩ := h.exists_frames hS
  have hclosure := h.lt_closures hm
  refine ⟨hts, hboundaries, fs, f, host, by rw [hfs, hold, List.append_assoc]; rfl, ⟨hhost, c, word,
    h.closure, (hx c hclosure).1, hpc hS ▸ Nat.succ_pos _, ?_, h.base ▸ hslot, ?_⟩, hslot ▸ htop⟩
  · rw [hpc hS, Nat.add_sub_cancel, hx.proto hclosure, hword]
  · rw [hwanted]
    refine hcall.imp (fun ⟨hop, hw⟩ => ⟨hop ▸ hopcode, hw, fun u hu hnext => ?_⟩)
      fun ⟨hop, hw⟩ => ⟨hop ▸ hopcode, hw⟩
    rw [hpc hS] at hnext ⊢
    exact hentry u (h.unit u hu) hop (hx.proto hclosure ▸ hnext)

/-- A function that returns has the upvalues over its registers closed, then its frame is left. -/
theorem perform_ret (embedding : Embedding) (run : Run) (w : Window) (x y : Nat) (m : Machine) :
    perform embedding run w (.ret x y) m =
      (leaveFrame (w.base + x) (if y = 0 then m.running.top - (w.base + x) else y - 1) >>=
        fun _ => pure Flow.leave) (m.modifyBoth fun h s => h.closeCells s w.base) := rfl

/-- Once the upvalues over the registers of the frame at work are closed, none is open in a coroutine
without any other frame. -/
theorem Regime.AtWork.openCells_closed (hm : m.Steady S ts) (h : S.AtWork d j a m f c) {fs : List Frame}
    {g : Frame} (hfs : m.running.frames.toList = fs ++ [g]) (htop : fs = [] → g = f) (hts : ts ≠ [])
    (hnil : fs = []) :
    (m.modifyBoth fun h s => h.closeCells s a.window.base).running.openCells = [] := by
  obtain rfl := htop hnil
  subst hnil
  exact h.base ▸ hm.openCells_closed hts hfs

section

variable (hS : IsCatalog S.program) {runl runr : Run} (hrun : S.Engines runl runr)
  {embedding : Embedding} {strict : Bool} (hembedding : ∀ name, Script (S.host strict) (embedding name))

include hS

/-- The frame on top returns, and is gone. -/
theorem return_ends (hm : m.Steady S ts) (h : S.AtWork d j a m f c) (embedding : Embedding) (run : Run)
    (x y : Nat) :
    S.Ends ts d m
      (fun flow m' => flow = .leave ∧ m'.running.frames.toList = m.running.frames.toList.dropLast)
      (fun e _ => e ≠ .yield) (perform embedding run a.window (.ret x y) m) := by
  rw [perform_ret]
  obtain ⟨fs, g, hfs, hd, -, htop⟩ := h.exists_top
  have hshift := hm.shift_closeUpvalues a.window.base
  have hclosed := h.openCells_closed hm hfs htop
  generalize (if y = 0 then m.running.top - (a.window.base + x) else y - 1) = n
  generalize (m.modifyBoth fun h s => h.closeCells s a.window.base) = m₁ at hshift hclosed
  have hleave := leaveFrame_ends hS (hm.drift hshift.drift hshift.tidy) (a.window.base + x) n
    (hshift.frames ▸ hfs) hclosed hd
  rw [hfs, List.dropLast_concat]
  exact .after (.of_shift hshift d) (hleave.bind fun _ m' _ hm' _ hfs' => .pure hm' ⟨rfl, hfs'⟩)

include hrun

/-- A script of the frame at work leaves it there. -/
theorem Regime.AtWork.script_paired (hm : m.Steady S ts) (hawake : S.Awake ts)
    (h : S.AtWork d j a m f c) {α : Type} {x : Run → Action α}
    (hx : Script ⟨S.program, .code a.window.base, S.honest, false⟩ x) (op : Operation) :
    Paired (S.Ends ts d m (fun _ m' => m.Keeps S (j + 1) m' ∧
        (S.honest = true → m'.running.frames = m.running.frames))
      (S.OperationFails ts m.running.frames a.window.base op)) (x runl m) (x runr m) := by
  have hpaired := hx.paired hS hrun hawake (fun _ => id) rfl hm (h.settled hm rfl) (.self _ m)
  exact hpaired.imp fun _ hr => (hr.kept.lower (h.depth.trans (Nat.le_succ j))).imp
    (fun _ _ h => ⟨h.1, h.2.frames⟩) fun _ _ hf => hf.2.operation hawake

/-- So do all operations but calls and returns. -/
theorem Regime.AtWork.operation_paired (hm : m.Steady S ts) (hawake : S.Awake ts)
    (h : S.AtWork d j a m f c) {op : Operation} (hop : op.isControl = false) :
    Paired (S.Ends ts d m (fun _ m' => m.Keeps S (j + 1) m' ∧
        (S.honest = true → m'.running.frames = m.running.frames))
      (S.OperationFails ts m.running.frames a.window.base op))
      (perform embedding runl a.window op m) (perform embedding runr a.window op m) := by
  obtain ⟨R, hR⟩ : ∃ R : Conduct, R = ⟨S.program, .code a.window.base, S.honest, false⟩ := ⟨_, rfl⟩
  have hprogram (x child : Nat) (cs : List Capture) (_ : op = .closure x child cs) (p : Prototype)
      (hp : a.window.closure.proto.children[child]? = some p) :
      R.program p ∧ (R.strict = true → cs.length = p.upvalueCount.toNat) := by
    rw [hR]
    rw [h.proto] at hp
    exact ⟨hS.child (hm.closures _ (Heap.closure_mem (h.lt_closures hm))).program
      (List.mem_of_getElem? hp), by simp⟩
  have hx := Script.perform embedding (show R.seat = .code a.window.base by rw [hR]) hop hprogram
  rw [hR] at hx
  exact h.script_paired hS hrun hm hawake hx op

include hembedding

theorem perform_paired (hm : m.Steady S ts) (hawake : S.Awake ts) (h : S.AtWork d j a m f c)
    (op : Operation) :
    Paired (S.Ends ts d m (S.Performed d j a c)
        (S.OperationFails ts m.running.frames a.window.base op))
      (perform embedding runl a.window op m) (perform embedding runr a.window op m) := by
  have hd : d ≤ j + 1 := h.depth.trans (Nat.le_succ j)
  by_cases hop : op.isControl = true
  · cases op with
    | call x y z =>
      refine (h.script_paired hS hrun hm hawake (.callArgs rfl x y) _).bind fun n m₁ _ hm₁ _ hkept₁ => ?_
      obtain ⟨hk₁, hfs₁⟩ := hkept₁
      have h₁ := h.after hm hk₁ hfs₁
      have hslot := (h₁.floor hm₁).mono (Nat.le_add_right _ x)
      have hcall := (startCall_paired hS hrun hembedding hm₁ hslot n
        (.inl ⟨hawake, fun _ => Nat.zero_lt_of_lt h₁.lt_depth⟩)).imp fun _ hr => (hr.kept.lower
          (hd.trans h₁.lt_depth)).imp (fun _ _ => id) fun _ _ hf =>
            Regime.HostFails.operation (.call x y z) rfl hfs₁ fun he => (hf.2 he).2 rfl
      rw [← bind_pure_comp, ← bind_pure_comp]
      refine hcall.bind fun o m₂ _ hm₂ _ hstarted => .refl (.pure hm₂ fun hflow => ?_)
      obtain ⟨hk₂, ho⟩ := hstarted
      cases o with
      | done => exact ⟨f, h₁.after hm₁ (hk₂.lower h₁.lt_depth) ho.2⟩
      | pushed => exact absurd rfl hflow
    | tailCall x y =>
      refine (h.script_paired hS hrun hm hawake (.callArgs rfl x y) _).bind fun n m₁ _ hm₁ _ hkept₁ => ?_
      obtain ⟨hk₁, hfs₁⟩ := hkept₁
      have h₁ := h.after hm hk₁ hfs₁
      have hlt := h₁.lt_depth
      obtain ⟨fs, g, hfs, hdepth, -⟩ := h₁.exists_top
      have hslot := (h₁.floor hm₁).mono (Nat.le_add_right _ x)
      have hcall := (startTailCall_paired hS hrun hembedding hm₁ hawake hfs hslot n).imp fun _ hr =>
        (hr.lower hdepth).imp (fun _ _ => id) fun _ _ hf =>
          hf.operation (.tailCall x y) rfl hfs₁
      rw [← bind_pure_comp, ← bind_pure_comp]
      refine hcall.bind fun o m₂ _ hm₂ _ ho => .refl (.pure hm₂ fun hflow => ?_)
      cases o with
      | done => exact ⟨f, h₁.after hm₁ (ho.1.lower hlt) ho.2⟩
      | pushed => exact absurd rfl hflow
    | ret x y =>
      exact .refl ((return_ends hS hm h embedding runl x y).imp (fun _ _ h hflow => absurd h.1 hflow)
        fun _ _ => id).never
    | _ => simp [Operation.isControl] at hop
  · exact (h.operation_paired hS hrun hm hawake (Bool.not_eq_true _ ▸ hop)).imp fun _ hr =>
      hr.imp (fun _ m' hkept _ => ⟨f, h.after hm hkept.1 hkept.2⟩) fun _ _ => id

/-- A step of a frame. -/
theorem step_paired (hm : m.Steady S ts) (hawake : S.Awake ts) (h : S.AtWork d j a m f c) :
    Paired (S.Ends ts d m (S.Stepped d) fun e m' => e = .yield → S.Suspends ts m')
      (step embedding runl a m) (step embedding runr a m) := by
  obtain ⟨f', hf', hpc⟩ := h.atPc (a.pc + 1)
  have hm' := hm.atPc (a.pc + 1)
  have hk := h.keeps_atPc (a.pc + 1)
  cases hfetch : a.fetch? with
  | none =>
    obtain ⟨e, m', hstep, hend⟩ := Activation.step_of_fetch_none embedding h.portable hfetch m
    rw [hstep, hstep]
    refine .refl ?_
    rcases hend with rfl | rfl
    · exact .fail hm (by simp)
    · exact .after hk (.fail hm' (by simp))
  | some fetched =>
    rw [Activation.step_of_fetch embedding runl hfetch, Activation.step_of_fetch embedding runr hfetch]
    refine (perform_paired hS hrun hembedding hm' hawake hf' fetched.operation).through
      (fun
        | .ok flow m' => .ok ((flow.target a.pc fetched.after).map fun pc => { a with pc := pc }) m'
        | .error e m' => .error e m')
      (fun r hr => ?_) fun e m' _ => rfl
    cases r with
    | ok flow m₁ =>
      refine ⟨.after hk ⟨hr.1, hr.2.1, fun a' ha' => ?_⟩, .refl _⟩
      obtain ⟨pc, hpc, rfl⟩ := Option.map_eq_some_iff.1 ha'
      obtain ⟨g, hg⟩ := hr.2.2 fun hflow => by simp [hflow, Flow.target] at hpc
      exact ⟨j, g, c, { hg with }⟩
    | error e m₁ =>
      exact ⟨.after hk ⟨hr.1, hr.2.imp_right fun ⟨hm₁, hk₁, hfail⟩ =>
        ⟨hm₁, hk₁, hf'.suspends hm' hpc hfetch hk₁.extend hfail⟩⟩, .refl _⟩

end

end LuaMachine
