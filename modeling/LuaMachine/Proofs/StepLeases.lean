import LuaMachine.Proofs.CellValues
import LuaMachine.Proofs.ScriptLeases
import LuaMachine.Proofs.Stepping

/-!
Steps of a frame keep to leases. Upvalues are opened by `CLOSURE` and written by `SETUPVAL` alone, the
one over registers of the frame, the other not over places that are to keep their values.
-/

namespace LuaMachine

/-- What is performed next assigns to a slot of a stack through an upvalue. -/
def Activation.Assigns (a : Activation) (m : Machine) (o : Owner) (i : Nat) : Prop :=
  ∃ x y after cell, a.fetch? = some ⟨.setUpval x y, after⟩ ∧
    a.window.closure.upvalues[y]? = some cell ∧ m.heap.cell cell = .opened o i

/-- What is performed next captures a slot that is no register of the function. -/
def Activation.Strays (a : Activation) (m : Machine) : Prop :=
  ∃ x child cs after r, a.fetch? = some ⟨.closure x child cs, after⟩ ∧ .register r ∈ cs ∧
    ¬ (r < a.window.closure.proto.maxStack.toNat ∧ a.window.base + r < m.running.stack.size)

variable {C : Custody} {R : Conduct} {ts : List CoroutineId} {m m' : Machine} {L : Lease}
  {fs : List Frame} {f : Frame} {c : ClosureId} {a : Activation} {slot d j : Nat}

theorem Tame.hostBody {strictly : Prop} (hseat : R.seat = .host) {embedding : Embedding}
    (hembedding : ∀ name, Tame R strictly (embedding name)) (f : Function) :
    Tame R strictly fun run => hostBody embedding f run := by
  have hbody (g : HostFunction) : Tame R strictly (g.body embedding) := by
    cases g with
    | builtin g => exact g.tame hseat
    | embedded name => exact hembedding name
  cases f with
  | host g => exact hbody g
  | hostClosure c => exact .andThen (.view _ fun _ => rfl) hbody
  | lua c => exact .throw (by simp)

section

variable (hS : IsCatalog C.program) {run : Run} (hrun : C.Minds run) {embedding : Embedding}
  {strict : Bool}
  (hembedding : ∀ name, Tame (C.toRegime.host strict) C.Strict (embedding name))
  (hm : m.Steady C.toRegime ts) (hk : m.Kempt C.honest C.bounded) (hL : m.Leased C.honest C.bounded L)

include hS hrun hembedding hm hk hL

/-! Calls -/

theorem callHost_tends (hawake : C.toRegime.Awake ts) (hpos : ts ≠ [] → 0 < m.depth)
    (hdepth : L.depth ≤ m.depth) (hslot : m.running.Floor slot) (hle : L.floor ≤ slot) {f : Function}
    (hf : ∀ c, f ≠ .lua c) (argCount : Nat) (wanted : Option Nat) :
    C.Tends L m (callHost embedding run f slot argCount wanted m) := by
  obtain ⟨host, hhost⟩ : ∃ host, host = hostFrame f slot argCount wanted := ⟨_, rfl⟩
  have hroom : Orderly (C.toRegime.between slot) (makeRoom slot argCount) := .makeRoom le_rfl argCount
  rw [callHost_eq_makeRoom, ← hhost]
  refine (hroom.tends_between hS hle hm hslot hk hL).bind hm
    (hroom.sequence.ends_between hS 0 hm hslot rfl) fun _ m₁ heq₁ hm₁ hk₁ hfs₁ hkempt₁ hL₁ => ?_
  rw [Action.bind_ok (pushFrame_apply _ _)]
  have hdepth₁ : m₁.depth = m.depth := congrArg Array.size hfs₁
  have hm₂ : (m₁.pushed host).Steady C.toRegime ts :=
    hhost ▸ hm₁.hostPushed (hdepth₁ ▸ hpos) (hk₁.floor_of_frames hfs₁ hslot) hf argCount wanted
  have habove : host.Above L.floor := by
    rw [hhost]
    exact ⟨hle, hle.trans (Nat.le_succ _), hle.trans (by simp only [hostFrame]; omega)⟩
  have htop₁ : m₁.running.top = slot + 1 + argCount :=
    (Action.Leaves.bind fun _ => .bind fun _ => Action.leaves_setTop _) m _ m₁ heq₁
  have hL₂ : (m₁.pushed host).Leased C.honest C.bounded L :=
    hL₁.pushed (hdepth₁ ▸ hdepth) habove (by omega)
  have hfs₂ : (m₁.pushed host).running.frames.toList = m.running.frames.toList ++ [host] := by
    rw [m₁.frames_pushed, hfs₁]
  have hdepth₂ : (m₁.pushed host).depth = m.depth + 1 := by
    rw [Machine.depth, ← Array.length_toList, hfs₂, List.length_append, Array.length_toList]
    rfl
  have hkempt₂ := hkempt₁.pushed host
  refine .after hm₁ hm₂ (Machine.keeps_pushed C.toRegime 0 m₁ host).toSpares rfl
    (.of_running hm₁ hm₂ rfl rfl rfl rfl) ?_
  generalize m₁.pushed host = m₂ at hm₂ hL₂ hfs₂ hdepth₂ hkempt₂ ⊢
  have hseat : (C.toRegime.host strict).Settled ts m₂.depth m₂ :=
    ⟨⟨le_rfl, fun _ => hdepth₂ ▸ Nat.succ_pos _⟩, fun hts => hdepth₂ ▸ Nat.succ_le_succ (hpos hts)⟩
  have hbody := Tame.hostBody rfl hembedding f
  refine (hbody.tends hS hrun hawake (fun _ => id) rfl hm₂ hseat hkempt₂ hL₂ (fun _ => False.elim)
    (by omega) (.inl (by omega))).bind hm₂
    (hbody.script.paired hS hrun.engines hawake (fun _ => id) rfl hm₂ hseat (.self _ m₂)).right
    fun n m₃ _ hm₃ hk₃ hstays hkempt₃ hL₃ => ?_
  have hdepth₃ : m.depth + 1 ≤ m₃.depth := hdepth₂ ▸ (hk₃.stands hseat.stands).depth
  obtain ⟨fs, g, hfs, hlength⟩ := m₃.exists_append_frame (Nat.zero_lt_of_lt hdepth₃)
  have hlast (hts : ts ≠ []) (hnil : fs = []) : m₃.running.openCells = [] := by
    have := hpos hts
    rw [hnil, List.length_nil] at hlength
    omega
  -- where host functions keep to the rules, it is the frame of this one that goes
  have hopen : m₃.Unnamed C.honest g := by
    intro hh hlua
    rw [hstays.frames hh, hfs₂] at hfs
    obtain ⟨-, hg⟩ := List.append_inj' hfs rfl
    obtain rfl := (List.cons.inj hg).1
    rw [hhost, isLua_hostFrame hf] at hlua
    cases hlua
  exact leaveFrame_tends hS hm₃ hkempt₃ hL₃ hfs hlast (by omega) hopen fun hn => by omega

theorem startCall_tends (hdepth : L.depth ≤ m.depth) (hslot : m.running.Floor slot)
    (hle : L.floor ≤ slot) (argCount : Nat) {wanted : Option Nat}
    (hstart : C.toRegime.Awake ts ∧ (ts ≠ [] → 0 < m.depth) ∨
      Regime.BodyAt slot m ∧ slot = 0 ∧ wanted = none) :
    C.Tends L m (startCall embedding run slot argCount wanted m) := by
  unfold startCall
  refine (resolveCall_tends hS hm hk hL hslot hle _ _).bind hm
    (resolveCall_ends hS hm hslot Limit.metaSteps argCount m.depth)
    fun ⟨target, n⟩ m₁ _ hm₁ hk₁ ⟨hfs₁, htarget, hbody⟩ hkempt₁ hL₁ => ?_
  have hdepth₁ : m₁.depth = m.depth := congrArg Array.size hfs₁
  have hslot₁ := hk₁.floor_of_frames hfs₁ hslot
  cases target with
  | host f =>
    have hnot : ¬ Regime.BodyAt slot m := fun ⟨_, c, hc⟩ => by simpa using hbody c hc
    obtain ⟨hawake, hpos⟩ := hstart.resolve_right fun h => hnot h.1
    have hcall := callHost_tends hS hrun hembedding hm₁ hkempt₁ hL₁ hawake (hdepth₁ ▸ hpos)
      (hdepth₁ ▸ hdepth) hslot₁ hle htarget n wanted
    exact hcall.bind hm₁ (callHost_paired hS hrun.engines (fun name => (hembedding name).script) hm₁
      hawake (hdepth₁ ▸ hpos) hslot₁ htarget n wanted).right
      fun _ _ _ _ _ _ hk₂ hL₂ => .stay hk₂ hL₂ rfl
  | lua c unit =>
    have hroot (hts : ts ≠ []) (hnil : m₁.running.frames.toList = []) : slot = 0 ∧ wanted = none := by
      refine (hstart.resolve_left fun h => ?_).2
      have hlt := h.2 hts
      rw [← hdepth₁, Machine.depth, ← Array.length_toList, hnil] at hlt
      simp at hlt
    exact (enterLua_tends hS hm₁ hkempt₁ hL₁ (hdepth₁ ▸ hdepth) hslot₁ hle htarget.1 htarget.2 n hroot
      false).bind hm₁ (enterLua_ends hS hm₁ hslot₁ htarget.1 htarget.2 n hroot false 0)
      fun _ _ _ _ _ _ hk₂ hL₂ => .stay hk₂ hL₂ rfl

theorem startTailCall_tends (hawake : C.toRegime.Awake ts)
    (hfs : m.running.frames.toList = fs ++ [f]) (hdepth : L.depth ≤ fs.length)
    (hslot : m.running.Floor slot) (hle : L.floor ≤ slot) (argCount : Nat) :
    C.Tends L m (startTailCall embedding run slot argCount m) := by
  have hlength : m.depth = fs.length + 1 := by
    rw [Machine.depth, ← Array.length_toList, hfs, List.length_append, List.length_singleton]
  unfold startTailCall
  refine (resolveCall_tends hS hm hk hL hslot hle _ _).bind hm
    (resolveCall_ends hS hm hslot Limit.metaSteps argCount m.depth)
    fun resolved m₁ _ hm₁ hk₁ hresolved hkempt₁ hL₁ => ?_
  obtain ⟨target, n⟩ := resolved
  obtain ⟨hfs₁, htarget, hbody⟩ := hresolved
  have hdepth₁ : m₁.depth = m.depth := congrArg Array.size hfs₁
  have hslot₁ := hk₁.floor_of_frames hfs₁ hslot
  cases target with
  | host g =>
    have hpos (_ : ts ≠ []) : 0 < m₁.depth := by omega
    have hcall := callHost_tends hS hrun hembedding hm₁ hkempt₁ hL₁ hawake hpos (by omega) hslot₁ hle
      htarget n none
    exact hcall.bind hm₁ (callHost_paired hS hrun.engines (fun name => (hembedding name).script) hm₁
      hawake hpos hslot₁ htarget n none).right fun _ _ _ _ _ _ hk₂ hL₂ => .stay hk₂ hL₂ rfl
  | lua c unit =>
    have hfs' : m₁.running.frames.toList = fs ++ [f] := hfs₁ ▸ hfs
    exact (replaceFrame_tends hS hm₁ hkempt₁ hL₁ hfs' hdepth htarget.1 htarget.2 hle n).bind hm₁
      (replaceFrame_ends hS hm₁ hfs' htarget.1 htarget.2 slot n (Nat.zero_le _))
      fun _ _ _ _ _ _ hk₂ hL₂ => .stay hk₂ hL₂ rfl

end

/-! The place in the frame on top -/

namespace Machine

variable {honest bounded : Bool}

/-- The frames are the same but for the place that is saved. -/
theorem mem_drop_atPc (hpos : 0 < m.depth) (pc n : Nat) :
    (∀ f ∈ (m.atPc pc).running.frames.toList.drop n,
      ∃ g ∈ m.running.frames.toList.drop n, f = { g with pc := f.pc }) ∧
    ∀ g ∈ m.running.frames.toList.drop n,
      ∃ f ∈ (m.atPc pc).running.frames.toList.drop n, f = { g with pc := f.pc } := by
  obtain ⟨fs, top, hfs, -⟩ := m.exists_append_frame hpos
  rw [Setting.toList_frames_atPc hfs, hfs, List.drop_append, List.drop_append]
  cases n - fs.length with
  | zero =>
    refine ⟨fun f hf => ?_, fun g hg => ?_⟩
    · rcases List.mem_append.1 hf with hf | hf
      · exact ⟨f, List.mem_append_left _ hf, rfl⟩
      · exact ⟨top, by simp, List.mem_singleton.1 hf ▸ rfl⟩
    · rcases List.mem_append.1 hg with hg | hg
      · exact ⟨g, List.mem_append_left _ hg, rfl⟩
      · exact ⟨{ top with pc := pc }, by simp, List.mem_singleton.1 hg ▸ rfl⟩
  | succ k =>
    simp only [List.drop_succ_cons, List.drop_nil, List.append_nil]
    exact ⟨fun f hf => ⟨f, hf, rfl⟩, fun g hg => ⟨g, hg, rfl⟩⟩

theorem covers_atPc (hpos : 0 < m.depth) (pc n : Nat) {i : Nat} {h : Heap} :
    (∃ f ∈ m.running.frames.toList.drop n, f.Covers bounded h i) →
      ∃ f ∈ (m.atPc pc).running.frames.toList.drop n, f.Covers bounded h i := by
  rintro ⟨g, hg, hbase, hclosure⟩
  obtain ⟨f, hf, heq⟩ := (mem_drop_atPc hpos pc n).2 g hg
  refine ⟨f, hf, ?_⟩
  rw [heq]
  exact ⟨hbase, hclosure⟩

theorem Kempt.atPc (hk : m.Kempt honest bounded) (hpos : 0 < m.depth) (pc : Nat) :
    (m.atPc pc).Kempt honest bounded :=
  hk.of_running rfl rfl rfl ⟨hk.running.listed, hk.running.distinct, hk.running.within, fun hh oc hoc => by
    simpa using covers_atPc hpos pc 0 (hk.running.covered hh oc hoc)⟩

theorem Leased.atPc (hL : m.Leased honest bounded L) (hpos : 0 < m.depth) (pc : Nat) :
    (m.atPc pc).Leased honest bounded L where
  frames f hf := by
    obtain ⟨g, hg, heq⟩ := (mem_drop_atPc hpos pc L.depth).1 f hf
    rw [heq]
    obtain ⟨hslot, hbase, htop⟩ := hL.frames g hg
    exact ⟨hslot, hbase, htop⟩
  top hd := by
    have hdepth : (m.atPc pc).depth = m.depth := Array.size_modify
    exact hL.top (hdepth ▸ hd)
  covered hh oc hoc := (hL.covered hh oc hoc).imp_right (covers_atPc hpos pc L.depth)

end Machine

/-- Writing an upvalue changes nothing else. -/
theorem Window.state_performSetUpval (w : Window) (x y : Nat) (m : Machine) (embedding : Embedding) (run : Run) :
    Outcome.state (perform embedding run w (.setUpval x y) m) = m ∨
      ∃ cell v, w.closure.upvalues[y]? = some cell ∧
        Outcome.state (perform embedding run w (.setUpval x y) m) = m.setCellValue cell v := by
  simp only [perform, Action.bind_apply, Window.get, Window.upvalue, readSlot]
  split
  · next v m' hread =>
    split_ifs at hread
    obtain ⟨-, rfl⟩ := EStateM.Result.ok.inj hread
    cases hcell : w.closure.upvalues[y]? with
    | none => exact .inl rfl
    | some cell =>
      rcases assignUpvalue_cases cell v m with hx | hx <;>
        simp only [Pure.pure, EStateM.pure, hx]
      · exact .inr ⟨cell, v, rfl, rfl⟩
      · exact .inl rfl
  · next e m' hread =>
    split_ifs at hread
    obtain ⟨-, rfl⟩ := EStateM.Result.error.inj hread
    exact .inl rfl

/-! The frame at work -/

namespace Regime.AtWork

variable {S : Regime} {honest bounded : Bool}

theorem mem_drop (h : S.AtWork d j a m f c) (hd : L.depth ≤ d) :
    f ∈ m.running.frames.toList.drop L.depth := by
  refine List.mem_of_getElem? (i := j - L.depth) ?_
  have hj := h.depth
  rw [List.getElem?_drop, Nat.add_sub_cancel' (hd.trans hj), h.frame]

/-- Upvalues may be opened over the registers of the frame. -/
theorem mayOpen (hm : m.Steady S ts) (h : S.AtWork d j a m f c) (hd : L.depth ≤ d) {r : Nat}
    (hr : bounded = true → r < a.window.closure.proto.maxStack.toNat ∧
      a.window.base + r < m.running.stack.size) :
    m.MayOpen honest bounded L (a.window.base + r) where
  within hb := (hr hb).2
  covered _ := by
    refine ⟨f, h.mem_drop hd, h.base ▸ Nat.le_add_right .., c, h.closure, h.lt_closures hm, fun hb => ?_⟩
    rw [← h.base, ← h.proto]
    exact Nat.add_lt_add_left (hr hb).1 _

end Regime.AtWork

section

variable (hS : IsCatalog C.program) {run : Run} (hrun : C.Minds run) {embedding : Embedding}
  {strict : Bool}
  (hembedding : ∀ name, Tame (C.toRegime.host strict) C.Strict (embedding name))
  (hm : m.Steady C.toRegime ts) (hk : m.Kempt C.honest C.bounded) (hL : m.Leased C.honest C.bounded L)
  (h : C.toRegime.AtWork d j a m f c) (hd : L.depth ≤ d)

include hS hm hk hL h hd

/-- The frame on top returns, with nothing open over its registers any more. -/
theorem return_tends (embedding : Embedding) (run : Run) (x y : Nat) :
    C.Tends L m (perform embedding run a.window (.ret x y) m) := by
  rw [perform_ret]
  obtain ⟨fs, g, hfs, hdepth, htop, hlast⟩ := h.exists_top
  have hshift := hm.shift_closeUpvalues a.window.base
  have hclose := Custody.Tends.closeUpvalues hm hk hL a.window.base
  have hk₁ : (m.modifyBoth fun h s => h.closeCells s a.window.base).Kempt C.honest C.bounded :=
    hclose.kempt
  have hL₁ : (m.modifyBoth fun h s => h.closeCells s a.window.base).Leased C.honest C.bounded L :=
    hclose.leased_ok
  have hleaves : C.Leaves L.floor m (m.modifyBoth fun h s => h.closeCells s a.window.base) :=
    hclose.leaves
  have hbase : L.floor ≤ a.window.base := h.base ▸ (hL.frames f (h.mem_drop hd)).base
  -- where host functions keep to the rules, it is the frame at work that goes
  have hopen : (m.modifyBoth fun h s => h.closeCells s a.window.base).Unnamed C.honest g := by
    intro hh _
    obtain ⟨rfl, -⟩ := htop hh
    exact h.base ▸ fun _ => Machine.slot_lt_of_closed
  have hclosed := h.openCells_closed hm hfs hlast
  generalize (if y = 0 then m.running.top - (a.window.base + x) else y - 1) = n
  generalize (m.modifyBoth fun h s => h.closeCells s a.window.base) = m₁
    at hshift hopen hclosed hk₁ hL₁ hleaves
  have hm₁ := hm.drift hshift.drift hshift.tidy
  have hfs₁ : m₁.running.frames.toList = fs ++ [g] := hshift.frames ▸ hfs
  have hleave : C.Tends L m₁ (leaveFrame (a.window.base + x) n m₁) :=
    leaveFrame_tends hS hm₁ hk₁ hL₁ hfs₁ hclosed (hd.trans hdepth) hopen fun _ =>
      hbase.trans (Nat.le_add_right ..)
  refine .after hm hm₁ (.of_drift hshift.drift) hshift.drift.owner hleaves ?_
  exact hleave.bind hm₁ (leaveFrame_ends hS hm₁ (a.window.base + x) n hfs₁ hclosed (Nat.zero_le _))
    fun _ _ _ _ _ _ hk₂ hL₂ => .stay hk₂ hL₂ rfl

/-- An assignment through an upvalue changes no slot that is to keep its value. -/
theorem performSetUpval_tends (x y : Nat)
    (hassign : ∀ cell o i, a.window.closure.upvalues[y]? = some cell →
      m.heap.cell cell = .opened o i → ¬ C.place o i) (embedding : Embedding) (run : Run) :
    C.Tends L m (perform embedding run a.window (.setUpval x y) m) := by
  obtain ⟨R, hR⟩ : ∃ R : Conduct, R = ⟨C.program, .code a.window.base, C.honest, false⟩ := ⟨_, rfl⟩
  have hseat : R.seat = .code a.window.base := by rw [hR]
  have hbase : L.floor ≤ a.window.base := h.base ▸ (hL.frames f (h.mem_drop hd)).base
  have hseq : Sequence R (perform embedding run a.window (.setUpval x y)) := .performSetUpval x y
  have hstate := a.window.state_performSetUpval x y m embedding run
  refine hseq.tends hS (by rw [hR]; exact fun _ => id) hm (h.settled hm hseat).seated hk hL
    (fun i hi => ?_) (fun oc hoc => .inl ?_) fun o i v hp _ hv => ?_
  · rw [hseat] at hi
    exact hbase.trans hi
  · rcases hstate with hsame | ⟨cell, v, -, hset⟩
    · exact hsame ▸ hoc
    · rwa [hset, m.openCells_setCellValue] at hoc
  · rcases hstate with hsame | ⟨cell, w, hcell, hset⟩
    · rwa [hsame]
    · rwa [hset, Machine.slot?_setCellValue fun hc => hassign cell o i hcell hc hp]

include hrun hembedding

theorem perform_tends (hawake : C.toRegime.Awake ts) (op : Operation)
    (hassign : ∀ x y cell o i, op = .setUpval x y → a.window.closure.upvalues[y]? = some cell →
      m.heap.cell cell = .opened o i → ¬ C.place o i)
    (hstray : ∀ x child cs r, op = .closure x child cs → .register r ∈ cs → C.bounded = true →
      r < a.window.closure.proto.maxStack.toNat ∧ a.window.base + r < m.running.stack.size) :
    C.Tends L m (perform embedding run a.window op m) := by
  obtain ⟨R, hR⟩ : ∃ R : Conduct, R = ⟨C.program, .code a.window.base, C.honest, false⟩ := ⟨_, rfl⟩
  have hseat : R.seat = .code a.window.base := by rw [hR]
  have hprogram : ∀ p, R.program p → C.program p := by rw [hR]; exact fun _ => id
  have hhonest : R.honest = C.honest := by rw [hR]
  have hdj := h.depth
  have hbase : L.floor ≤ a.window.base := h.base ▸ (hL.frames f (h.mem_drop hd)).base
  have hfrees (i : Nat) (hi : R.seat.Frees i) : L.floor ≤ i := by
    rw [hseat] at hi
    exact hbase.trans hi
  have hscript {α : Type} {x : Run → Action α} (hx : Tame R C.Strict x) : C.Tends L m (x run m) :=
    hx.tends hS hrun hawake hprogram hhonest hm (h.settled hm hseat) hk hL hfrees (by omega)
      (.inl (by omega))
  have hcallArgs (x y : Nat) :=
    ((Script.callArgs (R := R) hseat x y).paired hS hrun.engines hawake hprogram hhonest hm
      (h.settled hm hseat) (.self _ m)).right.kept
  by_cases hop : op.isControl = true
  · cases op with
    | call x y z =>
      refine (hscript (.callArgs hseat x y)).bind hm (hcallArgs x y)
        fun n m₁ _ hm₁ _ hkept₁ hkempt₁ hL₁ => ?_
      obtain ⟨hk₁, hstays⟩ := hkept₁
      have h₁ := h.after hm hk₁ hstays.frames
      have hlt := h₁.lt_depth
      have hslot := (h₁.floor hm₁).mono (Nat.le_add_right _ x)
      rw [← bind_pure_comp]
      exact (startCall_tends hS hrun hembedding hm₁ hkempt₁ hL₁ (by omega) hslot
        (hbase.trans (Nat.le_add_right ..)) n (.inl ⟨hawake, fun _ => Nat.zero_lt_of_lt hlt⟩)).bind hm₁
          (startCall_paired hS hrun.engines (fun name => (hembedding name).script) hm₁ hslot n
            (.inl ⟨hawake, fun _ => Nat.zero_lt_of_lt hlt⟩)).right
          fun _ _ _ _ _ _ hk₂ hL₂ => .stay hk₂ hL₂ rfl
    | tailCall x y =>
      refine (hscript (.callArgs hseat x y)).bind hm (hcallArgs x y)
        fun n m₁ _ hm₁ _ hkept₁ hkempt₁ hL₁ => ?_
      obtain ⟨hk₁, hstays⟩ := hkept₁
      have h₁ := h.after hm hk₁ hstays.frames
      obtain ⟨fs, g, hfs, hdepth, -⟩ := h₁.exists_top
      have hslot := (h₁.floor hm₁).mono (Nat.le_add_right _ x)
      rw [← bind_pure_comp]
      exact (startTailCall_tends hS hrun hembedding hm₁ hkempt₁ hL₁ hawake hfs (hd.trans hdepth) hslot
        (hbase.trans (Nat.le_add_right ..)) n).bind hm₁ (startTailCall_paired hS hrun.engines
          (fun name => (hembedding name).script) hm₁ hawake hfs hslot n).right
          fun _ _ _ _ _ _ hk₂ hL₂ => .stay hk₂ hL₂ rfl
    | ret x y => exact return_tends hS hm hk hL h hd embedding run x y
    | _ => simp [Operation.isControl] at hop
  · have htame (hset : ∀ x y, op ≠ .setUpval x y) (hclosure : ∀ x child cs, op ≠ .closure x child cs) :
        C.Tends L m (perform embedding run a.window op m) :=
      hscript (.perform embedding hseat (Bool.not_eq_true _ ▸ hop) hset hclosure)
    cases op with
    | setUpval x y =>
      exact performSetUpval_tends hS hm hk hL h hd x y (fun cell o i => hassign x y cell o i rfl)
        embedding run
    | closure x child cs =>
      have hchild (p : Prototype) (hp : a.window.closure.proto.children[child]? = some p) :
          R.program p ∧ (R.strict = true → cs.length = p.upvalueCount.toNat) := by
        rw [hR]
        rw [h.proto] at hp
        exact ⟨hS.child (hm.closures _ (Heap.closure_mem (h.lt_closures hm))).program
          (List.mem_of_getElem? hp), by simp⟩
      have hconfined : Confined R.seat (fun slot => ∃ r, .register r ∈ cs ∧ slot = a.window.base + r)
          (perform embedding run a.window (.closure x child cs)) :=
        .performClosure hseat x child fun r hr => ⟨r, hr, rfl⟩
      refine (Sequence.performClosure hseat x hchild).tends_confined hS hprogram (.inl hconfined) hm
        (h.settled hm hseat).seated hk hL hfrees (fun hhost => by rw [hseat] at hhost; cases hhost) ?_
      rintro slot ⟨r, hr, rfl⟩
      exact h.mayOpen hm hd fun hb => hstray x child cs r rfl hr hb
    | _ => exact htame (by simp) (by simp)

omit hS hrun hembedding hk hL hd in
/-- A step keeps to what its operation keeps to. -/
theorem step_tends_of_perform {fetched : Fetched} (hfetch : a.fetch? = some fetched)
    (hperform : C.Tends L (m.atPc (a.pc + 1))
      (perform embedding run a.window fetched.operation (m.atPc (a.pc + 1)))) :
    C.Tends L m (step embedding run a m) := by
  have hm' := hm.atPc (a.pc + 1)
  refine .after hm hm' (h.keeps_atPc (a.pc + 1)).toSpares rfl (.of_running hm hm' rfl rfl rfl rfl) ?_
  rw [Activation.step_of_fetch embedding run hfetch]
  cases hr : perform embedding run a.window fetched.operation (m.atPc (a.pc + 1)) with
  | ok flow m₁ =>
    rw [hr] at hperform
    exact ⟨hperform.kempt, hperform.leaves, fun _ => hperform.leased_ok⟩
  | error e m₁ =>
    rw [hr] at hperform
    exact ⟨hperform.kempt, hperform.leaves, fun hfatal => hperform.leased fun e' m'' heq => by
      obtain ⟨rfl, rfl⟩ := EStateM.Result.error.inj heq
      exact hfatal _ _ rfl⟩

/-- A step keeps to a lease, unless it assigns to a place that is to keep its value or captures what is
no register. -/
theorem step_tends (hawake : C.toRegime.Awake ts) (hassign : ∀ o i, C.place o i → ¬ a.Assigns m o i)
    (hstray : C.bounded = true → ¬ a.Strays m) : C.Tends L m (step embedding run a m) := by
  have hpos := Nat.zero_lt_of_lt h.lt_depth
  obtain ⟨f', hf', -⟩ := h.atPc (a.pc + 1)
  have hm' := hm.atPc (a.pc + 1)
  have hk' := hk.atPc hpos (a.pc + 1)
  have hL' := hL.atPc hpos (a.pc + 1)
  have hleaves : C.Leaves L.floor m (m.atPc (a.pc + 1)) := .of_running hm hm' rfl rfl rfl rfl
  cases hfetch : a.fetch? with
  | none =>
    obtain ⟨e, m', hstep, hend⟩ := Activation.step_of_fetch_none embedding h.portable hfetch m
    rw [hstep]
    rcases hend with rfl | rfl
    · exact .stay hk hL rfl
    · exact ⟨hk', hleaves, fun _ => hL'⟩
  | some fetched =>
    have hperform := perform_tends hS hrun hembedding hm' hk' hL' hf' hd hawake fetched.operation
      (fun x y cell o i hop hcell hopened hp => hassign o i hp
        ⟨x, y, fetched.after, cell, by rw [hfetch, ← hop], hcell, hopened⟩)
      (fun x child cs r hop hr hb => by_contra fun hnot => hstray hb
        ⟨x, child, cs, fetched.after, r, by rw [hfetch, ← hop], hr, hnot⟩)
    exact step_tends_of_perform hm h hfetch hperform

end

end LuaMachine
