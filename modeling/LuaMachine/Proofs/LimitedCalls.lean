import LuaMachine.Proofs.Limits

/-!
Calls keep to the limits: those from native code, the frames of functions, resumptions, and so all that host
functions do. No call from native code yields.
-/

namespace LuaMachine

theorem Heap.strand_withStatus (h : Heap) (r : Option CoroutineId) (status : CoroutineStatus)
    (c : CoroutineId) : ((h.withStatus r status).coroutine c).strand = (h.coroutine c).strand := by
  rw [coroutine_withStatus]
  split <;> rfl

theorem Action.attempt_eq_error {α : Type} {x : Action α} {e : Fault} {m m' : Machine}
    (h : attempt x m = .ok (.error e) m') : x m = .error e m' := by
  rw [attempt_apply] at h
  cases hx : x m with
  | ok a m₁ => simp [hx] at h
  | error e' m₁ =>
    simp only [hx] at h
    split at h
    · cases h
    · obtain ⟨he, rfl⟩ := EStateM.Result.ok.inj h
      rw [Except.error.inj he]

/-- All that a host function that keeps to the rules might do. -/
def Conduct.guest : Conduct := ⟨fun _ => True, .host, true, false⟩

variable {o : Options} {k : Bool} {m m' : Machine} {α : Type} {slot : Nat}
  {held : List Value}

namespace Machine

/-- The slots of a nested call are on the stack. -/
theorem Limited.callBase_le (hm : m.Limited o) : m.callBase ≤ m.running.stack.size := by
  unfold callBase
  cases hf : m.topFrame? with
  | none => exact hm.running.top
  | some f =>
    have hwindow := hm.running.windows f (Array.mem_of_back? hf)
    dsimp only
    split
    · exact max_le hm.running.top hwindow
    · exact hm.running.top

theorem Bounded.sequence (hm : m.Limited o) {x : Action α} (h : Sequence .guest x) : m.Bounded o k (x m) :=
  h.bounded rfl rfl m hm

/-! Nested calls -/

theorem Limited.entered (hm : m.Limited o) (h : m.nativeCalls < o.maxNativeCalls) :
    (m.entered held).Limited o where
  options := hm.options
  running := ⟨hm.running.frames, hm.running.stack, hm.running.top, hm.running.windows⟩
  parked := hm.parked
  stored := hm.stored
  nativeCalls := h
  resumptions := Nat.le_succ_of_le hm.resumptions

/-- The counts are what they were before a nested call once that has come to its end. -/
theorem GoesOn.exited (h : (m.entered held).GoesOn m') : m.GoesOn (m'.exited m.held) where
  nativeCalls := congrArg (· - 1) h.nativeCalls
  boundaries := congrArg (· - 1) h.boundaries
  parked := h.parked
  stack := h.stack

theorem Limited.exited (hm : m.Limited o) (hm' : m'.Limited o) (h : (m.entered held).GoesOn m') :
    (m'.exited m.held).Limited o where
  options := hm'.options
  running := ⟨hm'.running.frames, hm'.running.stack, hm'.running.top, hm'.running.windows⟩
  parked := hm'.parked
  stored := hm'.stored
  nativeCalls := (Nat.sub_le _ _).trans hm'.nativeCalls
  resumptions := by
    have hcalls : (m'.exited m.held).nativeCalls = m.nativeCalls := h.exited.nativeCalls
    exact hcalls ▸ h.length_parked.trans_le hm.resumptions

/-- Frames that are dropped after an error leave the free slot where the call was made. -/
theorem Bounded.unwound {a : α} (hm : m.Limited o) (hm' : m'.Limited o) (h : m.GoesOn m') (depth : Nat) :
    m.Bounded o k (.ok a (m'.unwound depth m.callBase)) := by
  obtain ⟨m₁, hm₁⟩ : ∃ m₁, LuaMachine.closeUpvalues m.callBase m' = .ok () m₁ := ⟨_, rfl⟩
  have hclose : m'.Bounded o false (.ok () m₁) := hm₁ ▸ Bounded.closeUpvalues hm' m.callBase
  have hunwound : m'.unwound depth m.callBase =
      m₁.modifyRunning fun s => { s.modifyFrames (·.shrink depth) with top := m.callBase } := by
    rw [← (EStateM.Result.ok.inj hm₁).2]
    rfl
  have hstrand : ({ m₁.running.modifyFrames (·.shrink depth) with top := m.callBase } : Strand).Limited o := {
    frames := Array.size_shrink.trans_le ((min_le_right ..).trans hclose.limited.running.frames)
    stack := hclose.limited.running.stack
    top := hm.callBase_le.trans (h.trans hclose.goesOn_ok).stack
    windows f hf := by
      have hf : f ∈ m₁.running.frames.toList.take depth := Array.toList_shrink ▸ Array.mem_toList_iff.2 hf
      exact hclose.limited.running.windows f (Array.mem_toList_iff.1 (List.mem_of_mem_take hf)) }
  rw [hunwound]
  exact .after (h.trans hclose.goesOn_ok) (.of_running hclose.limited hstrand le_rfl rfl)

namespace Bounded

/-- A function and its arguments are placed on the stack. -/
theorem placeCall (hm : m.Limited o) (f : Value) (args : List Value) :
    m.Bounded o k (LuaMachine.placeCall f args m) := by
  rw [placeCall_apply]
  refine .bind ?_ fun _ m₁ _ hm₁ _ => .pure hm₁
  refine .withRoom hm fun m₁ hm₁ hsize _ => .bind (.writeSlot hm₁ _ _) fun _ m₂ _ hm₂ h₂ => ?_
  refine .bind (.sequence hm₂ (.writeSlots _ _)) fun _ m₃ _ hm₃ h₃ => .setTop hm₃ ?_
  have hle := h₂.stack.trans h₃.stack
  omega

section

variable {run : Run} (hrun : ∀ job, Action.Bounded o true (run job))

include hrun

/-- Nothing yields out of a nested call. -/
theorem callAt (hm : m.Limited o) (slot argCount : Nat) (wanted : Option Nat) :
    m.Bounded o k (LuaMachine.callAt run slot argCount wanted held m) := by
  rw [callAt_apply]
  split
  · exact .throw hm (by simp)
  · next hcalls =>
    have hlt : m.nativeCalls < o.maxNativeCalls := hm.options_eq.2.2 ▸ Nat.lt_of_not_le hcalls
    have hr := hrun (.call slot argCount wanted) (m.entered held) (hm.entered hlt)
    cases hcall : run (.call slot argCount wanted) (m.entered held) with
    | ok a m' =>
      rw [hcall] at hr
      exact .of_ok (hm.exited hr.limited hr.goesOn_ok) hr.goesOn_ok.exited
    | error e m' =>
      rw [hcall] at hr
      have hyield : e ≠ .yield := by
        rintro rfl
        exact absurd (hr.yields m' rfl).2 (Nat.succ_ne_zero _)
      dsimp only
      split
      · next he => exact .fatal hr.limited he
      · next he =>
        have hgoesOn := hr.goesOn_error (Bool.eq_false_iff.2 he)
        exact .of_error hyield (hm.exited hr.limited hgoesOn) hgoesOn.exited

/-- What a call leaves is taken from the stack, and the free slot is where the function was placed. -/
theorem placed (hm : m.Limited o) (f : Value) (args : List Value) (wanted : Option Nat)
    {take : Nat → Action α} (htake : ∀ slot, (take slot).Bounded o k) :
    m.Bounded o k ((do
      let slot ← LuaMachine.placeCall f args
      LuaMachine.callAt run slot args.length wanted held
      let a ← take slot
      LuaMachine.setTop slot
      pure a) m) := by
  refine .bind (.placeCall hm f args) fun slot m₁ hplace hm₁ h₁ => ?_
  refine .bind (.callAt hrun hm₁ slot _ _) fun _ m₂ _ hm₂ h₂ => ?_
  refine .bind (htake slot m₂ hm₂) fun a m₃ _ hm₃ h₃ => ?_
  have hslot : slot ≤ m₃.running.stack.size := by
    rw [Action.returns_placeCall hplace]
    exact hm.callBase_le.trans (h₁.trans (h₂.trans h₃)).stack
  exact .bind (.setTop hm₃ hslot) fun _ m₄ _ hm₄ _ => .pure hm₄

theorem callHandler (hm : m.Limited o) (f : Value) (args : List Value) :
    m.Bounded o k (LuaMachine.callHandlerHolding run held f args m) :=
  .placed hrun hm f args (some 1) fun slot _ hm => .sequence hm (.takeSlot slot)

theorem callValue (hm : m.Limited o) (f : Value) (args : List Value) :
    m.Bounded o k (LuaMachine.callValueHolding run held f args m) :=
  have htake (slot : Nat) : Action.Bounded o k (do
      let top ← LuaMachine.view (·.running.top)
      takeSlots slot (top - slot)) := fun _ hm => .view (.sequence hm (.takeSlots slot _))
  .placed hrun hm f args none htake

theorem call (hm : m.Limited o) (f : Value) (args : List Value) :
    m.Bounded o k (LuaMachine.call run f args m) := by
  have hcall : m.Bounded o false (LuaMachine.callValue run f args m) := .callValue hrun hm f args
  rw [call_apply]
  cases h : LuaMachine.callValue run f args m with
  | ok vs m' =>
    rw [h] at hcall
    exact hcall.mayYield
  | error e m' =>
    rw [h] at hcall
    have hyield : e ≠ .yield := by
      rintro rfl
      exact absurd (hcall.yields m' rfl).1 Bool.false_ne_true
    dsimp only
    split
    · exact hcall.mayYield
    · next he =>
      have hunwound : m.Bounded o k (.ok () (m'.unwound m.depth m.callBase)) :=
        .unwound hm hcall.limited (hcall.goesOn_error (Bool.eq_false_iff.2 he)) m.depth
      exact .of_error (addTraceback_ne_yield hyield) hunwound.limited hunwound.goesOn_ok

theorem protectedCall (hm : m.Limited o) (f : Value) (args : List Value) :
    m.Bounded o k (LuaMachine.protectedCall run f args m) := by
  have hcall : m.Bounded o false (LuaMachine.callValue run f args m) := .callValue hrun hm f args
  rw [protectedCall_apply]
  cases h : LuaMachine.callValue run f args m with
  | ok vs m' =>
    rw [h] at hcall
    exact .of_ok hcall.limited hcall.goesOn_ok
  | error e m' =>
    rw [h] at hcall
    dsimp only
    split
    · next he => exact .fatal hcall.limited he
    · next he => exact .unwound hm hcall.limited (hcall.goesOn_error (Bool.eq_false_iff.2 he)) m.depth

end

/-! Frames -/

/-- Other frames, if they are not too many and have their registers on the stack. -/
theorem withFrames (hm : m.Limited o) {f : Array Frame → Array Frame}
    (hsize : (f m.running.frames).size ≤ o.maxDepth)
    (hmem : ∀ g ∈ f m.running.frames, g ∈ m.running.frames ∨ g.top ≤ m.running.stack.size) :
    m.Bounded o k (.ok () (m.modifyRunning fun s => s.modifyFrames f)) := by
  refine .of_running (s := m.running.modifyFrames f) hm
    ⟨hsize, hm.running.stack, hm.running.top, fun g hg => ?_⟩ le_rfl rfl
  exact (hmem g hg).elim (hm.running.windows g) id

theorem popped (hm : m.Limited o) : m.Bounded o k (.ok () m.popped) := by
  refine .withFrames hm (Array.size_pop.trans_le ((Nat.sub_le _ _).trans hm.running.frames)) fun g hg => .inl ?_
  have hg : g ∈ m.running.frames.toList.dropLast := Array.toList_pop ▸ Array.mem_toList_iff.2 hg
  exact Array.mem_toList_iff.1 (List.mem_of_mem_dropLast hg)

theorem pushed (hm : m.Limited o) (hdepth : m.depth < o.maxDepth) {f : Frame}
    (hf : f.top ≤ m.running.stack.size) : m.Bounded o k (.ok () (m.pushed f)) := by
  refine .withFrames hm ((Array.size_push f).trans_le hdepth) fun g hg => ?_
  rcases Array.mem_push.1 hg with hg | rfl
  · exact .inl hg
  · exact .inr hf

/-- The free slot a caller finds is on the stack, where there was room for the results. -/
theorem settleTop (hm : m.Limited o) {f : Frame} {n : Nat}
    (hroom : f.slot + f.wanted.getD n ≤ m.running.stack.size) :
    m.Bounded o k (LuaMachine.settleTop n f m) := by
  unfold LuaMachine.settleTop
  cases hwanted : f.wanted with
  | none => exact .setTop hm (by simpa [hwanted] using hroom)
  | some w =>
    have hslot : f.slot + (some w).getD n ≤ m.running.stack.size := hwanted ▸ hroom
    refine .view ?_
    cases hcaller : m.topFrame? with
    | none => exact .setTop hm hslot
    | some caller =>
      refine .setTop hm ?_
      split
      · exact hm.running.windows caller (Array.mem_of_back? hcaller)
      · exact hslot

theorem leaveFrame (hm : m.Limited o) (first n : Nat) :
    m.Bounded o k (LuaMachine.leaveFrame first n m) := by
  have hpopped : m.Bounded o k (.ok () m.popped) := .popped hm
  rw [leaveFrame_apply]
  cases m.topFrame? with
  | none => exact hpopped
  | some f =>
    rw [leaveFrom_some]
    simp only [moveResults, bind_assoc]
    refine .after hpopped.goesOn_ok (.withRoom hpopped.limited fun m₁ hm₁ hsize _ => ?_)
    refine .bind (.sequence hm₁ (.moveSlots _ _ _)) fun _ m₂ _ hm₂ h₂ => ?_
    refine .bind (.sequence hm₂ (.clearSlots _ _)) fun _ m₃ _ hm₃ h₃ => .settleTop hm₃ ?_
    have hle := h₂.stack.trans h₃.stack
    omega

/-! Coroutines -/

theorem placeArguments (hm : m.Limited o) (slot : Nat) (args : List Value) :
    m.Bounded o k (LuaMachine.placeArguments slot args m) := by
  refine .withRoom hm fun m₁ hm₁ hsize _ => ?_
  refine .bind (.sequence hm₁ (.writeSlots _ _)) fun _ m₂ _ hm₂ h₂ => .setTop hm₂ ?_
  have hle := h₂.stack
  omega

theorem gather (hm : m.Limited o) : m.Bounded o k (LuaMachine.gather m) := by
  refine .view (.bind (.sequence hm (.takeSlots 0 _)) fun vs m₁ _ hm₁ _ => ?_)
  exact .bind (.setTop hm₁ (Nat.zero_le _)) fun _ m₂ _ hm₂ _ => .pure hm₂

/-- Values are yielded where nothing is nested, or refused. -/
theorem yieldValues (hm : m.Limited o) (vs : List Value) :
    m.Bounded o true ((LuaMachine.yieldValues vs : Action α) m) := by
  rw [yieldValues_apply]
  split_ifs with hmain hnested
  · exact .raise hm _
  · exact .raise hm _
  · have hm' : m.Bounded o true (.ok () { m with yielded := vs }) :=
      .change hm hm.options hm.running le_rfl rfl rfl rfl rfl
    exact ⟨hm'.limited, fun _ => hm'.goesOn_ok, fun _ _ => ⟨rfl, by simpa using hnested⟩⟩

end Bounded

theorem Limited.resetRunning (hm : m.Limited o) :
    m.resetRunning.Limited o ∧ m.resetRunning.nativeCalls = m.nativeCalls ∧
      m.resetRunning.parked = m.parked := by
  obtain ⟨cells, openCells, hclose⟩ := m.heap.closeCells_eq m.running 0
  have hreset : m.resetRunning =
      { m with
        heap := { m.heap with cells := cells }
        running := { m.running with openCells := openCells, frames := #[], top := 0, boundaries := 0 } } := by
    simp only [Machine.resetRunning, modifyBoth, hclose]
  rw [hreset]
  refine ⟨⟨hm.options, ⟨Nat.zero_le _, hm.running.stack, Nat.zero_le _, fun f hf => ?_⟩, hm.parked, hm.stored,
    hm.nativeCalls, hm.resumptions⟩, rfl, rfl⟩
  exact absurd hf (Array.not_mem_empty f)

/-- The strand of a coroutine takes the place of the one that waits. -/
theorem Limited.resumed (hm : m.Limited o) (h : m.nativeCalls < o.maxNativeCalls) (c : CoroutineId) :
    (m.resumed c).Limited o := by
  rw [resumed_eq]
  refine ⟨hm.options, ?_, fun s hs => ?_, fun d s hs => ?_, h, Nat.succ_le_succ hm.resumptions⟩
  · cases hs : (m.heap.coroutine c).strand with
    | none => exact .create o _
    | some s => exact hm.stored c s hs
  · rcases List.mem_cons.1 hs with rfl | hs
    · exact hm.running
    · exact hm.parked s hs
  · rw [Heap.strand_withStatus, Heap.coroutine_modifyCoroutine] at hs
    split at hs
    · cases hs
    · exact hm.stored d s hs

/-- Back on the strand that waited, with as many slots and nested calls as before. -/
theorem Bounded.resumedFrom {a : α} (hm : m.Limited o) (hm' : m'.Limited o)
    (hcalls : m'.nativeCalls = m.nativeCalls + 1)
    (hparked : m'.parked.map Strand.extent = (m.running :: m.parked).map Strand.extent) (c : CoroutineId)
    (resumer : Option CoroutineId) (status : CoroutineStatus) :
    m.Bounded o k (.ok a (m'.resumedFrom c resumer status)) := by
  cases hp : m'.parked with
  | nil => simp [hp] at hparked
  | cons s parked =>
    rw [hp, List.map_cons, List.map_cons, List.cons.injEq] at hparked
    obtain ⟨hextent, hrest⟩ := hparked
    have hlength : parked.length = m.parked.length := by simpa using congrArg List.length hrest
    have hlimited (t : Strand) (ht : t ∈ s :: parked) : t.Limited o := hm'.parked t (hp ▸ ht)
    rw [resumedFrom_eq m' c resumer status hp]
    refine .of_ok ⟨hm'.options, hlimited s List.mem_cons_self, fun t ht => hlimited t (List.mem_cons_of_mem _ ht),
      fun d t ht => ?_, (Nat.sub_le _ _).trans hm'.nativeCalls, ?_⟩
      ⟨?_, congrArg Prod.snd hextent, hrest, (congrArg Prod.fst hextent).ge⟩
    · rw [Heap.strand_withStatus, Heap.strand_withStatus, Heap.coroutine_modifyCoroutine] at ht
      split at ht
      · exact Option.some.inj ht ▸ hm'.running
      · exact hm'.stored d t ht
    · change parked.length ≤ m'.nativeCalls - 1
      have := hm.resumptions
      omega
    · change m'.nativeCalls - 1 = m.nativeCalls
      omega

namespace Bounded

section

variable {run : Run} (hrun : ∀ job, Action.Bounded o true (run job))

include hrun

theorem runCoroutine (hm : m.Limited o) (args : List Value) :
    m.Bounded o true (LuaMachine.runCoroutine run args m) := by
  rw [runCoroutine_apply]
  split
  · rw [beginCoroutine_eq]
    refine .bind (.placeArguments hm 1 args) fun _ m₁ _ hm₁ _ => ?_
    exact .bind (hrun _ m₁ hm₁) fun _ m₂ _ hm₂ _ => .gather hm₂
  · rw [continueCoroutine_eq]
    have hwake : m.Bounded o true (wake args m) := by
      rw [wake_apply]
      exact .bind (.placeArguments hm _ args) fun _ m₁ _ hm₁ _ => .leaveFrame hm₁ _ _
    refine .bind hwake fun _ m₁ _ hm₁ _ => ?_
    exact .bind (hrun _ m₁ hm₁) fun _ m₂ _ hm₂ _ => .gather hm₂

theorem resumeSuspended (hm : m.Limited o) (hcalls : m.nativeCalls < o.maxNativeCalls) (c : CoroutineId)
    (args : List Value) : m.Bounded o k (LuaMachine.resumeSuspended run c args m) := by
  have hr := Bounded.runCoroutine hrun (hm.resumed hcalls c) args
  have hback {m' : Machine} (hm' : m'.Limited o) (h : (m.resumed c).GoesOn m') {a : Bool × List Value}
      (status : CoroutineStatus) : m.Bounded o k (.ok a (m'.resumedFrom c m.current status)) :=
    .resumedFrom hm hm' (h.nativeCalls.trans (by rw [resumed_eq])) (h.parked.trans (by rw [resumed_eq])) c _ _
  rw [resumeSuspended_apply]
  cases h : LuaMachine.runCoroutine run args (m.resumed c) with
  | ok vs m' =>
    rw [h] at hr
    exact hback hr.limited hr.goesOn_ok .dead
  | error e m' =>
    rw [h] at hr
    dsimp only
    by_cases hyield : e = .yield
    · subst hyield
      have hsuspended := hback hr.limited (hr.goesOn_error rfl) (a := (true, [])) .suspended
      exact .after hsuspended.goesOn_ok
        (.change hsuspended.limited hsuspended.limited.options hsuspended.limited.running le_rfl rfl rfl rfl rfl)
    · rw [resumeFailed_of_ne _ _ _ hyield]
      split
      · next he => exact .fatal hr.limited he
      · next he =>
        have hgoesOn := hr.goesOn_error (Bool.eq_false_iff.2 he)
        obtain ⟨hlimited, hcalls', hparked'⟩ := hr.limited.resetRunning
        exact .resumedFrom hm hlimited (hcalls'.trans (hgoesOn.nativeCalls.trans (by rw [resumed_eq])))
          (hparked' ▸ hgoesOn.parked.trans (by rw [resumed_eq])) c _ _

/-- A resumption counts as a nested call. -/
theorem resume (hm : m.Limited o) (c : CoroutineId) (args : List Value) :
    m.Bounded o k (LuaMachine.resume run c args m) := by
  rw [resume_apply]
  cases (m.heap.coroutine c).status with
  | suspended =>
    dsimp only
    split
    · exact .pure hm
    · next hcalls =>
      exact .resumeSuspended hrun hm (hm.options_eq.2.2 ▸ Nat.lt_of_not_le hcalls) c args
  | dead | running | normal => exact .pure hm

end

end Bounded

end Machine

open Machine (Bounded)

/-- Host functions that keep to the rules keep to the limits. -/
theorem Script.bounded {R : Conduct} {x : Run → Action α} (h : Script R x) (hhost : R.seat = .host)
    (hhonest : R.honest = true) {run : Run} (hrun : ∀ job, Action.Bounded o true (run job)) :
    Action.Bounded o true (x run) := by
  induction h with
  | sequence h => exact h.bounded hhost hhonest
  | bind _ _ ihx ihf =>
    exact fun m hm => .bind (ihx m hm) fun a m' heq hm' _ => ihf a ⟨run, m, m', heq⟩ m' hm'
  | callAt slot argCount wanted _ => exact fun _ hm => .callAt hrun hm slot argCount wanted
  | callHandler f args => exact fun _ hm => .callHandler hrun hm f args
  | callValue f args => exact fun _ hm => .callValue hrun hm f args
  | protectedCall f args => exact fun _ hm => .protectedCall hrun hm f args
  | resume c args => exact fun _ hm => .resume hrun hm c args
  | call f args _ => exact fun _ hm => .call hrun hm f args
  | tryCall f args _ _ _ ihv ihe =>
    intro m hm
    have hcall : m.Bounded o false (LuaMachine.call run f args m) := .call hrun hm f args
    refine .bind hcall.mayYield.attempt fun r m₁ hr hm₁ _ => ?_
    cases r with
    | ok vs => exact ihv vs m₁ hm₁
    | error e =>
      refine ihe e (fun he => ?_) m₁ hm₁
      exact absurd (hcall.yields m₁ (he ▸ Action.attempt_eq_error hr)).1 Bool.false_ne_true
  | yieldValues vs _ => exact fun _ hm => .yieldValues hm vs
  | attempt _ _ hdishonest _ => simp [hhonest] at hdishonest

end LuaMachine
