import LuaMachine.Proofs.FunctionCall
import LuaMachine.Proofs.ScriptRun

/-!
Frames come and go. A frame that is entered lies above the lowest one of its strand; with the last frame
of a coroutine nothing is open over its strand any more.
-/

namespace LuaMachine

variable {S : Regime} {ts : List CoroutineId} {m m' : Machine} {d : Nat} {fs : List Frame} {f : Frame}
  {slot : Nat}

/-! Frames -/

/-- A frame for a slot of a strand, above all that is of importance there. -/
structure Strand.Admits (s : Strand) (f : Frame) : Prop where
  root : s.frames.toList = [] →
    f.isLua = true ∧ f.slot = 0 ∧ f.wanted = none ∧ f.base ≤ f.top ∧ f.base ≤ s.top
  above : ∀ b fs, s.frames.toList = b :: fs → f.Above b.base

theorem Machine.Steady.pushed (hm : m.Steady S ts) (hbacked : f.Backed m.heap)
    (hadmits : (∃ c, m.running.owner = .coroutine c) → m.running.Admits f) :
    (m.pushed f).Steady S ts := by
  have hframes := m.frames_pushed f
  refine hm.congr rfl rfl rfl rfl (hm.tidy_running.mk' rfl rfl (fun g hg => ?_) fun howner => ?_)
  · rw [hframes] at hg
    rcases List.mem_append.1 hg with hg | hg
    · exact hm.tidy_running.frames g hg
    · exact List.mem_singleton.1 hg ▸ hbacked
  · obtain ⟨hbare, hrooted⟩ := hm.tidy_running.grounded howner
    obtain ⟨hroot, habove⟩ := hadmits howner
    refine ⟨fun hf => by simp [hframes] at hf, fun b fs hf => ?_⟩
    rw [hframes] at hf
    cases hold : m.running.frames.toList with
    | nil =>
      rw [hold, List.nil_append, List.cons.injEq] at hf
      obtain ⟨rfl, rfl⟩ := hf
      obtain ⟨hlua, hslot, hwanted, hwindow, htop⟩ := hroot hold
      refine ⟨hlua, hslot, hwanted, hwindow, htop, nofun, fun oc hoc => ?_⟩
      have hopen : (m.pushed f).running.openCells = [] := hbare hold
      rw [hopen] at hoc
      cases hoc
    | cons b' fs' =>
      rw [hold, List.cons_append, List.cons.injEq] at hf
      obtain ⟨rfl, rfl⟩ := hf
      have hroot := hrooted b' fs' hold
      refine { hroot with frames := fun g hg => ?_ }
      rcases List.mem_append.1 hg with hg | hg
      · exact hroot.frames g hg
      · exact List.mem_singleton.1 hg ▸ habove b' fs' hold

theorem Machine.keeps_pushed (S : Regime) (d : Nat) (m : Machine) (f : Frame) :
    m.Keeps S d (m.pushed f) :=
  .of_running rfl rfl rfl rfl rfl
    (m.frames_pushed f ▸ (List.take_prefix d _).trans (List.prefix_append ..))

theorem Machine.Keeps.floor_of_frames (hk : m.Keeps S d m')
    (hfs : m'.running.frames = m.running.frames) (hslot : m.running.Floor slot) :
    m'.running.Floor slot := by
  unfold Strand.Floor
  rw [hk.owner, hfs]
  exact hslot

/-- The frame on top may go, the last one of a coroutine once nothing is open. -/
theorem Machine.Steady.popped (hm : m.Steady S ts) (hfs : m.running.frames.toList = fs ++ [f])
    (hlast : ts ≠ [] → fs = [] → m.running.openCells = []) : m.popped.Steady S ts := by
  have hframes : m.popped.running.frames.toList = fs := by
    rw [m.frames_popped, hfs, List.dropLast_concat]
  refine hm.congr rfl rfl rfl rfl (hm.tidy_running.mk' rfl rfl (fun g hg => ?_) fun howner => ?_)
  · rw [hframes] at hg
    exact hm.tidy_running.frames g (hfs ▸ List.mem_append_left _ hg)
  · obtain ⟨-, hrooted⟩ := hm.tidy_running.grounded howner
    refine ⟨fun hf => hlast (hm.owner_running.1 howner) (hframes ▸ hf), fun b fs' hf => ?_⟩
    rw [hframes] at hf
    subst hf
    have hroot := hrooted b (fs' ++ [f]) hfs
    exact { hroot with frames := fun g hg => hroot.frames g (List.mem_append_left _ hg) }

theorem Machine.keeps_popped (S : Regime) (hfs : m.running.frames.toList = fs ++ [f])
    (hd : d ≤ fs.length) : m.Keeps S d m.popped := by
  refine .of_running rfl rfl rfl rfl rfl ?_
  rw [m.frames_popped, hfs, List.dropLast_concat, List.take_append_of_le_length hd]
  exact List.take_prefix d _

theorem Machine.Steady.floor_of_mem (hm : m.Steady S ts) (hfs : m.running.frames.toList = fs ++ [f]) :
    (∃ c, m.running.owner = .coroutine c) → ∀ b fs', fs = b :: fs' → f.Above b.base := by
  rintro howner b fs' rfl
  exact ((hm.tidy_running.grounded howner).rooted b (fs' ++ [f]) hfs).frames f (by simp)

/-! Leaving a frame -/

/-- As many results of a function as its caller wants go to where the function was. -/
def moveResults (first n : Nat) (f : Frame) : Action Unit := do
  ensureStack (f.slot + f.wanted.getD n + Limit.extraStack)
  moveSlots f.slot first (min (f.wanted.getD n) n)
  clearSlots (f.slot + n) (f.wanted.getD n - n)

/-- The free slot is behind the results, or behind the registers of the caller. -/
def settleTop (n : Nat) (f : Frame) : Action Unit :=
  match f.wanted with
  | none => setTop (f.slot + n)
  | some _ => do
    match ← view (·.topFrame?) with
    | some caller => setTop (if caller.isLua then caller.top else f.slot + f.wanted.getD n)
    | none => setTop (f.slot + f.wanted.getD n)

theorem leaveFrom_some (first n : Nat) (f : Frame) (m : Machine) :
    leaveFrom first n (some f) m = (moveResults first n f >>= fun _ => settleTop n f) m := by
  simp only [moveResults, bind_assoc]
  rfl

theorem settleTop_apply (n : Nat) (f : Frame) (m : Machine) :
    ∃ top, settleTop n f m = setTop top m ∧
      (f.slot ≤ top ∨ ∃ caller, m.topFrame? = some caller ∧ top = caller.top) := by
  unfold settleTop
  cases f.wanted with
  | none => exact ⟨_, rfl, .inl (Nat.le_add_right ..)⟩
  | some w =>
    simp only [Action.bind_ok (Action.view_apply _ _)]
    cases hcaller : m.topFrame? with
    | none => exact ⟨_, rfl, .inl (Nat.le_add_right ..)⟩
    | some caller =>
      refine ⟨_, rfl, ?_⟩
      split
      · exact .inr ⟨caller, rfl, rfl⟩
      · exact .inl (Nat.le_add_right ..)

theorem Sequence.moveResults {R : Conduct} (first n : Nat) (f : Frame) :
    Sequence R (moveResults first n f) :=
  .andThen (.ensureStack _) fun _ => .andThen (.moveSlots _ _ _) fun _ => .clearSlots _ _

section

variable (hS : IsCatalog S.program)

include hS

theorem leaveFrom_ends (hm : m.Steady S ts) (first n : Nat) (hslot : m.running.Floor f.slot)
    (d : Nat) :
    S.Ends ts d m (fun _ m' => m'.running.frames = m.running.frames) (fun e _ => e ≠ .yield)
      (leaveFrom first n (some f) m) := by
  have hseq : Sequence (S.between f.slot) (moveResults first n f) := .moveResults first n f
  rw [leaveFrom_some]
  refine (hseq.ends_between hS d hm hslot rfl).bind fun _ m' _ hm' hk hfs => ?_
  obtain ⟨top, htop, hplace⟩ := settleTop_apply n f m'
  have hfloor : m'.running.Floor top := by
    rcases hplace with hle | ⟨caller, hcaller, rfl⟩
    · exact (hk.floor_of_frames hfs hslot).mono hle
    · exact hm'.floor_topFrame hcaller
  have hshift := hm'.shift_setTop hfloor
  rw [htop]
  exact ⟨hm'.drift hshift.drift hshift.tidy, .of_shift hshift d, hshift.frames.trans hfs⟩

/-- Leaving a frame removes it and no other one. -/
theorem leaveFrame_ends (hm : m.Steady S ts) (first n : Nat)
    (hfs : m.running.frames.toList = fs ++ [f])
    (hlast : ts ≠ [] → fs = [] → m.running.openCells = []) (hd : d ≤ fs.length) :
    S.Ends ts d m (fun _ m' => m'.running.frames.toList = fs) (fun e _ => e ≠ .yield)
      (leaveFrame first n m) := by
  have hpopped : m.popped.running.frames.toList = fs := by
    rw [m.frames_popped, hfs, List.dropLast_concat]
  have hslot : m.popped.running.Floor f.slot := fun howner b fs' hf =>
    (hm.floor_of_mem hfs howner b fs' (hpopped ▸ hf)).slot
  rw [leaveFrame_apply, topFrame?_of_append hfs]
  refine .after (Machine.keeps_popped S hfs hd)
    ((leaveFrom_ends hS (hm.popped hfs hlast) first n hslot d).imp (fun _ m' h => ?_) fun _ _ => id)
  rw [h, hpopped]

end

/-! Entering a function -/

/-- Where the registers of a callee start: behind the arguments, or where they are. -/
def layOutBase (p : Prototype) (start argCount : Nat) : Action (Nat × Nat) :=
  if p.isVararg then layOutSurplus p start argCount else pure (start, p.paramCount.toNat)

theorem returns_layOutBase (p : Prototype) (start argCount : Nat) :
    Action.Returns (fun r => start ≤ r.1) (layOutBase p start argCount) := by
  refine .ite ?_ (.pure le_rfl)
  intro m r m' h
  rw [returns_layOutSurplus p start argCount m r m' h]
  exact Nat.le_add_right ..

/-- The registers of a frame as they are laid out, with the prototype. -/
theorem layOutFrame_eq (c : ClosureId) (slot argCount : Nat) :
    layOutFrame c slot argCount = (do
      checkDepth
      let p ← view fun m => (m.heap.closure c).proto
      ensureStack (slot + 1 + max argCount p.paramCount.toNat + p.paramCount.toNat +
        p.maxStack.toNat + 1 + Limit.extraStack)
      clearSlots (slot + 1 + min argCount p.paramCount.toNat) (p.paramCount.toNat - argCount)
      let r ← layOutBase p (slot + 1) argCount
      finishLayOut p r.1 r.2) := by
  simp only [layOutFrame, layOutBase, finishLayOut]
  congr! with _ p _ _
  split
  · rfl
  · simp only [pure_bind]

theorem Orderly.layOutFrame {R : Conduct} (c : ClosureId) {slot : Nat} (h : R.seat.Frees slot)
    (argCount : Nat) : Orderly R (layOutFrame c slot argCount) := by
  have hstart : R.seat.Frees (slot + 1) := h.mono (Nat.le_succ slot)
  rw [layOutFrame_eq]
  refine .andThen .checkDepth fun _ => .andThen (.view _ fun m => by simp [Closure.erase]) fun p => ?_
  refine .andThen (.ensureStack _) fun _ => .andThen (.clearSlots (hstart.mono (by omega)) _) fun _ => ?_
  refine .bind (.ite (Orderly.slotwise.layOutSurplus .newTable p hstart argCount) (.pure _)) fun r hreturns => ?_
  obtain ⟨m, m', hr⟩ := hreturns
  have hbase : R.seat.Frees r.1 := hstart.mono (returns_layOutBase p (slot + 1) argCount m r m' hr)
  exact .andThen (.clearSlots (hbase.mono (by omega)) _) fun _ =>
    .andThen (.setTop (hbase.mono (by omega))) fun _ => .pure _

/-- The registers lie above the slot of the function, and end where the free slot is. -/
theorem layOutFrame_eq_ok {c : ClosureId} {slot argCount : Nat} {r : Prototype × Nat × Nat}
    (h : layOutFrame c slot argCount m = .ok r m') :
    slot < r.2.1 ∧ r.2.1 ≤ r.2.2 ∧ m'.running.top = r.2.2 := by
  rw [layOutFrame_eq] at h
  obtain ⟨_, m₁, -, h⟩ := Action.bind_eq_ok.1 h
  obtain ⟨p, m₂, -, h⟩ := Action.bind_eq_ok.1 h
  obtain ⟨_, m₃, -, h⟩ := Action.bind_eq_ok.1 h
  obtain ⟨_, m₄, -, h⟩ := Action.bind_eq_ok.1 h
  obtain ⟨⟨base, live⟩, m₅, hbase, h⟩ := Action.bind_eq_ok.1 h
  obtain ⟨_, m₆, -, h⟩ := Action.bind_eq_ok.1 h
  obtain ⟨_, m₇, htop, h⟩ := Action.bind_eq_ok.1 h
  obtain ⟨rfl, rfl⟩ := EStateM.Result.ok.inj h
  exact ⟨returns_layOutBase p (slot + 1) argCount m₄ (base, live) m₅ hbase, Nat.le_add_right ..,
    Action.leaves_setTop _ m₆ _ m₇ htop⟩

section

variable (hS : IsCatalog S.program)

include hS

theorem layOutFrame_ends (hm : m.Steady S ts) (hslot : m.running.Floor slot) (c : ClosureId)
    (argCount d : Nat) :
    S.Ends ts d m (fun r m' => m'.running.frames = m.running.frames ∧ slot < r.2.1 ∧
      r.2.1 ≤ r.2.2 ∧ m'.running.top = r.2.2) (fun e _ => e ≠ .yield)
      (layOutFrame c slot argCount m) :=
  have hseq : Orderly (S.between slot) (layOutFrame c slot argCount) := .layOutFrame c le_rfl argCount
  (hseq.sequence.ends_between hS d hm hslot rfl).also fun _ _ => layOutFrame_eq_ok

/-- A function is entered in a frame of its own. -/
theorem enterLua_ends (hm : m.Steady S ts) (hslot : m.running.Floor slot) {c : ClosureId}
    (hc : c.index < m.heap.closures.size) {unit : Option CompiledUnit}
    (hunit : ∀ u, unit = some u → (m.heap.closure c).proto.IsUnit u) (argCount : Nat)
    {wanted : Option Nat}
    (hroot : ts ≠ [] → m.running.frames.toList = [] → slot = 0 ∧ wanted = none) (tail : Bool) (d : Nat) :
    S.Ends ts d m (fun _ m' => ∃ f, m'.running.frames.toList = m.running.frames.toList ++ [f])
      (fun e _ => e ≠ .yield) (enterLua c unit slot argCount wanted tail m) := by
  rw [enterLua_eq]
  refine (layOutFrame_ends hS hm hslot c argCount d).bind fun ⟨p, base, top⟩ m₁ _ hm₁ hk₁ h => ?_
  obtain ⟨hfs₁, hbase, htop, hend⟩ := h
  obtain ⟨f, hf⟩ : ∃ f, f = calleeFrame c unit slot argCount wanted tail p base top := ⟨_, rfl⟩
  dsimp only
  rw [← hf, pushFrame_apply]
  have hbacked : f.Backed m₁.heap := by
    intro c' hc'
    obtain rfl : c = c' := by rw [hf] at hc'; exact Option.some.inj hc'
    rw [hk₁.extend.proto hc, hf]
    exact ⟨(hk₁.extend c hc).1, hunit⟩
  have hadmits (howner : ∃ c, m₁.running.owner = .coroutine c) : m₁.running.Admits f := by
    rw [hf]
    refine ⟨fun hnil => ?_, fun b fs hfs => ?_⟩
    · obtain ⟨hslot₀, hwanted⟩ := hroot (hm₁.owner_running.1 howner) (hfs₁ ▸ hnil)
      exact ⟨rfl, hslot₀, hwanted, htop, hend.ge.trans' htop⟩
    have hle := hslot (hk₁.owner ▸ howner) b fs (hfs₁ ▸ hfs)
    exact ⟨hle, hle.trans hbase.le, (hle.trans hbase.le).trans htop⟩
  exact ⟨hm₁.pushed hbacked hadmits, Machine.keeps_pushed S d m₁ f, f, by
    rw [Machine.frames_pushed, hfs₁]⟩

end

/-- Closing upvalues does not look at frames. -/
theorem Machine.closed_popped (m : Machine) (level : Nat) :
    m.popped.modifyBoth (fun h s => h.closeCells s level) =
      (m.modifyBoth fun h s => h.closeCells s level).popped := by
  have hheap : (m.heap.closeCells (m.running.modifyFrames (·.pop)) level).1 =
      (m.heap.closeCells m.running level).1 := by
    by_cases h : m.running.openCells.isEmpty = true <;>
      simp [Heap.closeCells, Strand.modifyFrames, Strand.peek, h]
  have hstrand : (m.heap.closeCells (m.running.modifyFrames (·.pop)) level).2 =
      (m.heap.closeCells m.running level).2.modifyFrames (·.pop) := by
    rw [Heap.openCells_closeCells, Heap.openCells_closeCells]
    rfl
  simp only [Machine.popped, Machine.modifyBoth, Machine.modifyRunning, hheap, hstrand]

/-- With its upvalues those of the last frame of a coroutine are closed. -/
theorem Machine.Steady.openCells_closed (hm : m.Steady S ts) (hts : ts ≠ [])
    (hfs : m.running.frames.toList = [f]) :
    (m.modifyBoth fun h s => h.closeCells s f.base).running.openCells = [] := by
  have hroot := (hm.tidy_running.grounded (hm.owner_running.2 hts)).rooted f [] hfs
  have hopen : (m.modifyBoth fun h s => h.closeCells s f.base).running.openCells =
      m.running.openCells.filter fun c => !decide (f.base ≤ c.slot) :=
    congrArg Strand.openCells (m.heap.openCells_closeCells m.running f.base)
  rw [hopen, List.filter_eq_nil_iff]
  exact fun oc hoc => by simpa using hroot.cells oc hoc

/-- The machine once the frame on top has gone with what is open from a slot on. -/
def Machine.vacated (m : Machine) (level : Nat) : Machine :=
  (m.modifyBoth fun h s => h.closeCells s level).popped

/-- The frame on top is gone, whichever it was. -/
theorem Machine.Steady.vacated (hm : m.Steady S ts) (hfs : m.running.frames.toList = fs ++ [f])
    (hd : d ≤ fs.length) :
    (m.vacated f.base).Steady S ts ∧ m.Keeps S d (m.vacated f.base) ∧
      (m.vacated f.base).running.frames.toList = fs ∧ (m.vacated f.base).running.Floor f.slot ∧
        (ts ≠ [] → fs = [] → f.slot = 0 ∧ f.wanted = none) := by
  have hshift := hm.shift_closeUpvalues f.base
  have hclosed (hts : ts ≠ []) (hnil : fs = []) := hm.openCells_closed hts (hnil ▸ hfs)
  unfold Machine.vacated
  generalize (m.modifyBoth fun h s => h.closeCells s f.base) = m₁ at hshift hclosed
  have hm₁ := hm.drift hshift.drift hshift.tidy
  have hfs₁ : m₁.running.frames.toList = fs ++ [f] := by rw [hshift.frames, hfs]
  have hfs₂ : m₁.popped.running.frames.toList = fs := by
    rw [m₁.frames_popped, hfs₁, List.dropLast_concat]
  refine ⟨hm₁.popped hfs₁ hclosed,
    (Machine.Keeps.of_shift hshift d).trans (Machine.keeps_popped S hfs₁ hd), hfs₂,
    fun howner b fs' hf => (hm₁.floor_of_mem hfs₁ howner b fs' (hfs₂ ▸ hf)).slot, fun hts hnil => ?_⟩
  rw [hnil] at hfs₁
  have hroot := (hm₁.tidy_running.grounded (hm₁.owner_running.2 hts)).rooted f [] hfs₁
  exact ⟨hroot.slot, hroot.wanted⟩

/-- The called function and its arguments go to where the one that is left was. -/
def moveCall (slot argCount : Nat) (f : Frame) : Action Unit := do
  moveSlots f.slot slot (argCount + 1)
  setTop (f.slot + 1 + argCount)

theorem replaceFrame_of_append (hfs : m.running.frames.toList = fs ++ [f]) (c : ClosureId)
    (unit : Option CompiledUnit) (slot argCount : Nat) :
    replaceFrame c unit slot argCount m =
      (moveCall slot argCount f >>= fun _ => enterLua c unit f.slot argCount f.wanted true)
        (m.vacated f.base) := by
  rw [replaceFrame_apply (topFrame?_of_append hfs), replaceWith,
    Action.bind_ok (show closeUpvalues f.base m.popped =
      .ok () (m.popped.modifyBoth fun h s => h.closeCells s f.base) from rfl), m.closed_popped]
  simp only [moveCall, bind_assoc]
  rfl

theorem Sequence.moveCall (slot argCount : Nat) (f : Frame) :
    Sequence (S.between f.slot) (moveCall slot argCount f) :=
  .andThen (.moveSlots _ _ _) fun _ => .setTop (show f.slot ≤ f.slot + 1 + argCount by omega)

/-- The frame on top gives way to another one. -/
theorem replaceFrame_ends (hS : IsCatalog S.program) (hm : m.Steady S ts)
    (hfs : m.running.frames.toList = fs ++ [f]) {c : ClosureId}
    (hc : c.index < m.heap.closures.size) {unit : Option CompiledUnit}
    (hunit : ∀ u, unit = some u → (m.heap.closure c).proto.IsUnit u) (slot argCount : Nat)
    (hd : d ≤ fs.length) :
    S.Ends ts d m (fun _ m' => ∃ f, m'.running.frames.toList = fs ++ [f]) (fun e _ => e ≠ .yield)
      (replaceFrame c unit slot argCount m) := by
  obtain ⟨hm₁, hk₁, hfs₁, hslot₁, hroot⟩ := hm.vacated hfs hd
  have hseq : Sequence (S.between f.slot) (moveCall slot argCount f) := .moveCall slot argCount f
  rw [replaceFrame_of_append hfs]
  refine .after hk₁ ((hseq.ends_between hS d hm₁ hslot₁ rfl).bind fun _ m₂ _ hm₂ hk₂ hfs₂ => ?_)
  have hx := hk₁.extend.trans hk₂.extend
  refine (enterLua_ends hS hm₂ (hk₂.floor_of_frames hfs₂ hslot₁) (hx c hc).1 ?_ argCount
    (fun hts hnil => hroot hts ?_) true d).imp (fun _ m' h => ?_) fun _ _ => id
  · rwa [hx.proto hc]
  · rwa [hfs₂, hfs₁] at hnil
  · rwa [hfs₂, hfs₁] at h

end LuaMachine
