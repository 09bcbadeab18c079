import LuaMachine.Proofs.Bystanders
import LuaMachine.Proofs.Lasting
import LuaMachine.Proofs.Upvalues

/-!
Calls write nothing below the slot of the called function, wherever they are made: from native code, by
`TFORLOOP` or by `CALL`. A frame that `CALL` has entered keeps to this slot while it is run, also after a yield.
-/

namespace LuaMachine

/-- A call is under way on a strand: the frames from a depth on lie above the slot of the called function. -/
structure Strand.Serves (d slot : Nat) (s : Strand) : Prop where
  frames : ∀ f ∈ s.frames.toList.drop d, f.Above slot
  top : d < s.frames.size → slot ≤ s.top

/-- Calls the iterator of a loop, which lies in a register with its arguments behind. -/
def callIterator (run : Run) (w : Window) (a c : Nat) : Action Unit := do
  ensureStack (w.base + a + 3 + 3 + c)
  copySlots (w.base + a + 3) (w.base + a) 3
  setTop (w.base + a + 3 + 3)
  callAt run (w.base + a + 3) 2 (some c)

/-- Takes what the iterator gave first and says whether the loop has ended. -/
def endIteration (w : Window) (a : Nat) : Action Bool := do
  resetTop
  let first ← readSlot (w.base + a + 3)
  if first.isNil then pure true
  else
    writeSlot (w.base + a + 3 - 1) first
    pure false

theorem iterate_eq (run : Run) (w : Window) (a c : Nat) :
    iterate run w a c = callIterator run w a c >>= fun _ => endIteration w a := by
  simp only [iterate, callIterator, endIteration, bind_assoc]

variable {C : Custody} {R : Conduct} {ts : List CoroutineId} {m m' : Machine} {L : Lease} {w : Window}
  {a b c d slot : Nat} {honest bounded : Bool}

theorem Strand.serves_zero (s : Strand) : s.Serves 0 0 :=
  ⟨fun _ _ => ⟨Nat.zero_le _, Nat.zero_le _, Nat.zero_le _⟩, fun _ => Nat.zero_le _⟩

theorem Machine.Leased.of_serves (h : m.running.Serves L.depth L.floor)
    (hcells : L.cells = m.running.openCells) : m.Leased honest bounded L :=
  ⟨h.frames, h.top, fun _ _ hoc => .inl (hcells ▸ hoc)⟩

theorem Machine.Leased.serves (h : m.Leased honest bounded L) : m.running.Serves L.depth L.floor :=
  ⟨h.frames, h.top⟩

theorem Orderly.callArgs (h : R.seat.Frees (w.base + a)) (b : Nat) : Orderly R (w.callArgs a b) :=
  .ite (.andThen (.view _ fun _ => rfl) fun _ => .ite (.andThen (.throw (by simp)) fun _ => .pure _) (.pure _))
    (.andThen (.setTop (h.mono (Nat.le_add_right ..))) fun _ => .pure _)

section

variable (hS : IsCatalog C.program) {run : Run} (hrun : C.Minds run) (hawake : C.toRegime.Awake ts)
  (hm : m.Steady C.toRegime ts) (hd : ts ≠ [] → 0 < m.depth) (hk : m.Kempt C.honest C.bounded)
  (hL : m.Leased C.honest C.bounded L) (hdepth : L.depth ≤ m.depth)

include hS hrun hawake hm hd hk hL hdepth

theorem callIterator_tends (hslot : m.running.Floor (w.base + a + 3)) (hle : L.floor ≤ w.base + a + 3)
    (c : Nat) : C.Tends L m (callIterator run w a c m) := by
  have hfrees : (Seat.between (w.base + a + 3)).Frees (w.base + a + 3) := le_refl _
  have hplace : Orderly (C.toRegime.between (w.base + a + 3)) (do
      ensureStack (w.base + a + 3 + 3 + c)
      copySlots (w.base + a + 3) (w.base + a) 3
      setTop (w.base + a + 3 + 3)) :=
    .andThen (.ensureStack _) fun _ => .andThen (.copySlots hfrees _ _) fun _ =>
      .setTop (hfrees.mono (Nat.le_add_right ..))
  have htends := (hplace.tends_between hS hle hm hslot hk hL).bind hm
    (hplace.sequence.ends_between hS 0 hm hslot rfl)
    (f := fun _ => callAt run (w.base + a + 3) 2 (some c)) fun _ m' _ hm' hk' hfs hkempt' hL' => by
      have hdepth' : m'.depth = m.depth := congrArg Array.size hfs
      exact callAt_tends hrun hawake hm' (hdepth' ▸ hd) hkempt' hL' (hdepth' ▸ hdepth)
        (hk'.floor_of_frames hfs hslot) hle 2 (some c) []
  simpa only [callIterator, bind_assoc] using htends

variable {embedding : Embedding} {strict : Bool}
  (hembedding : ∀ name, Tame (C.toRegime.host strict) C.Strict (embedding name))

include hembedding

/-- A frame makes a call; the frames that are there stay. -/
theorem performCall_tends (hslot : m.running.Floor (w.base + a)) (hle : L.floor ≤ w.base + a) (b c : Nat) :
    C.Tends L m (perform embedding run w (.call a b c) m) ∧
      C.toRegime.Ends ts m.depth m (fun _ _ => True) (fun _ _ => True)
        (perform embedding run w (.call a b c) m) := by
  have hargs : Orderly (C.toRegime.between (w.base + a)) (w.callArgs a b) := .callArgs le_rfl b
  have hends := hargs.sequence.ends_between hS m.depth hm hslot rfl
  have hcall {n : Nat} {wanted : Option Nat} {m' : Machine} (hm' : m'.Steady C.toRegime ts)
      (hk' : m.Keeps C.toRegime m.depth m') (hfs : m'.running.frames = m.running.frames)
      (hdepth' : m'.depth = m.depth) :=
    (startCall_paired hS hrun.engines (fun name => (hembedding name).script) hm'
      (hk'.floor_of_frames hfs hslot) n (show _ ∨ Regime.BodyAt _ m' ∧ _ = 0 ∧ wanted = none from
        .inl ⟨hawake, hdepth' ▸ hd⟩)).right
  constructor
  · refine (hargs.tends_between hS hle hm hslot hk hL).bind hm hends
      fun n m' _ hm' hk' hfs hkempt' hL' => ?_
    have hdepth' : m'.depth = m.depth := congrArg Array.size hfs
    rw [← bind_pure_comp]
    exact (startCall_tends hS hrun hembedding hm' hkempt' hL' (hdepth' ▸ hdepth)
      (hk'.floor_of_frames hfs hslot) hle n (.inl ⟨hawake, hdepth' ▸ hd⟩)).bind hm' (hcall hm' hk' hfs hdepth')
      fun _ _ _ _ _ _ hk₂ hL₂ => .stay hk₂ hL₂ rfl
  · refine (hends.imp (fun _ _ => id) fun _ _ _ => trivial).bind fun n m' _ hm' hk' hfs => ?_
    have hdepth' : m'.depth = m.depth := congrArg Array.size hfs
    rw [← bind_pure_comp, ← hdepth']
    exact ((hcall hm' hk' hfs hdepth').imp (fun _ _ _ => trivial) fun _ _ _ => trivial).bind
      fun _ _ _ hm₂ _ _ => .pure hm₂ trivial

end

/-! Running what `CALL` has entered -/

/-- The frames of a strand above a depth are gone. -/
def Machine.HasLeft (o : Owner) (d : Nat) (m : Machine) : Prop := m.running.owner = o ∧ m.depth ≤ d

/-- Makes the step of a frame that is about to make a call. Where this enters a function, frames are run until no
more than `d` are left. -/
def runCall (embedding : Embedding) (d : Nat) (a : Activation) (run : Run) : Action Unit := do
  match ← step embedding run a with
  | some _ => pure ()
  | none => run (.execute d)

section

variable {P : Option Activation → Machine → Prop} {embedding : Embedding} {strict : Bool} (fuel : Nat)
  (hS : IsCatalog C.program) (hembedding : ∀ name, Tame (C.toRegime.host strict) C.Strict (embedding name))
  (hguards : C.Guards P)

include hS hembedding

omit fuel hguards in
/-- The step in which a frame makes a call keeps to the slot of the function. -/
theorem stepCall_tends {run : Run} (hrun : C.Minds run) {j x y z after : Nat} {act : Activation} {f : Frame}
    {c : ClosureId} (hm : m.Steady C.toRegime ts) (hk : m.Kempt C.honest C.bounded)
    (hawake : C.toRegime.Awake ts) (hwork : C.toRegime.AtWork d j act m f c)
    (hfetch : act.fetch? = some ⟨.call x y z, after⟩) :
    C.Tends ⟨m.depth, act.window.base + x, m.running.openCells⟩ m (step embedding run act m) ∧
      C.toRegime.Ends ts d m (fun _ m' => m.depth ≤ m'.depth) (fun _ _ => True)
        (step embedding run act m) := by
  have hpos := Nat.zero_lt_of_lt hwork.lt_depth
  have hdepth₁ : (m.atPc (act.pc + 1)).depth = m.depth := Array.size_modify
  have hm₁ := hm.atPc (act.pc + 1)
  have hk₁ := hk.atPc hpos (act.pc + 1)
  obtain ⟨f₁, hwork₁, -⟩ := hwork.atPc (act.pc + 1)
  have hslot := (hwork₁.floor hm₁).mono (Nat.le_add_right _ x)
  have hkeeps := hwork.keeps_atPc (act.pc + 1)
  obtain ⟨htends, hends⟩ := performCall_tends hS hrun hawake hm₁ (fun _ => hdepth₁.symm ▸ hpos) hk₁
    (L := ⟨m.depth, act.window.base + x, m.running.openCells⟩) (.fresh _ hdepth₁.le rfl) hdepth₁.ge hembedding
    hslot le_rfl y z
  have hlow := (hwork.depth.trans_lt hwork.lt_depth).le
  have hstands : (m.atPc (act.pc + 1)).Stands ts m.depth := ⟨hdepth₁.ge, fun _ => hpos⟩
  rw [hdepth₁] at hends
  have hends' : C.toRegime.Ends ts d (m.atPc (act.pc + 1)) (fun _ m' => m.depth ≤ m'.depth) _
      (perform embedding run act.window (.call x y z) (m.atPc (act.pc + 1))) :=
    (hends.kept.lower hlow).imp (fun _ _ h => (h.1.stands hstands).depth) fun _ _ h => h.2
  rw [Activation.step_eq_of_fetch embedding _ hfetch, Action.bind_ok (savePc_apply _ _)]
  refine ⟨.after hm hm₁ hkeeps.toSpares rfl (.of_running hm hm₁ rfl rfl rfl rfl) ?_, .after hkeeps ?_⟩
  · exact htends.bind hm₁ hends fun _ _ _ _ _ _ hk₂ hL₂ => .stay hk₂ hL₂ rfl
  · exact hends'.bind fun _ _ _ hm₂ _ h => .pure hm₂ h

include hguards

/-- What is run by `CALL` keeps to the slot of the function, if it is stopped once the call is over. -/
theorem runCall_tends {j x y z after : Nat} {act : Activation} {f : Frame} {c : ClosureId}
    (hm : m.Steady C.toRegime ts) (hk : m.Kempt C.honest C.bounded) (hawake : C.toRegime.Awake ts)
    (hstop : ∀ act m', m'.HasLeft m.running.owner m.depth → P act m')
    (hwork : C.toRegime.AtWork d j act m f c) (hfetch : act.fetch? = some ⟨.call x y z, after⟩) :
    C.Tends ⟨m.depth, act.window.base + x, m.running.openCells⟩ m
      (runCall embedding d act (watched embedding (haltAt P) fuel) m) := by
  obtain ⟨htends, hends⟩ := stepCall_tends hS hembedding (hguards.minds hS hembedding fuel) hm hk hawake
    hwork hfetch
  refine htends.bind hm hends fun o m₂ _ hm₂ hkeeps hdepth hk₂ hL₂ => ?_
  cases o with
  | some a => exact .stay hk₂ hL₂ rfl
  | none =>
    have hrest := (hguards.tends_until hS hembedding (hwork.depth.trans_lt hwork.lt_depth)
      (fun act m' howner hle => hstop act m' ⟨howner, hle⟩) pure fuel).1 hm₂ hkeeps.owner hdepth hk₂ hL₂ le_rfl
    rwa [bind_pure] at hrest

omit hembedding hguards in
/-- Frames below are kept meanwhile. -/
theorem runCall_ends {run : Run} (hrun : C.toRegime.Engines run run)
    (hosts : ∀ name, Script (C.toRegime.host strict) (embedding name)) {j : Nat} {act : Activation} {f : Frame}
    {c : ClosureId} (hm : m.Steady C.toRegime ts) (hawake : C.toRegime.Awake ts)
    (hwork : C.toRegime.AtWork d j act m f c) :
    C.toRegime.Ends ts d m (fun _ _ => True) (fun _ _ => True) (runCall embedding d act run m) := by
  have hstep := (step_paired hS hrun hosts hm hawake hwork).right
  refine (hstep.imp (fun _ _ => id) fun _ _ _ => trivial).bind fun o m' _ hm' _ _ => ?_
  cases o with
  | some a => exact .pure hm' trivial
  | none =>
    have hrest := (hrun (.execute d) ts m' hm' trivial).right
    exact hrest.imp (fun _ _ _ => trivial) fun _ _ _ => trivial

/-- So does what a coroutine goes on with that has stopped in a call. -/
theorem continueCall_tends {slot : Nat} (hm : m.Steady C.toRegime ts) (hk : m.Kempt C.honest C.bounded)
    (hd : 0 < d) (hstop : ∀ act m', m'.HasLeft m.running.owner d → P act m')
    (hs : m.running.Stopped C.toRegime m.heap) (hdepth : d < m.depth) (hserves : m.running.Serves d slot)
    (args : List Value) :
    C.Tends ⟨d, slot, m.running.openCells⟩ m
      (runCoroutine (watched embedding (haltAt P) fuel) args m) := by
  have hne : m.running.frames ≠ #[] := fun hnil => by simp [Machine.depth, hnil] at hdepth
  rw [runCoroutine_apply, if_neg (by simpa using hne), continueCoroutine_eq]
  refine (wake_tends hS hm hk (.of_serves hserves rfl) hs hdepth args).bind hm
    (wake_ends hS hm hs.frames args hdepth) fun _ m₁ _ hm₁ hkeeps _ hk₁ hL₁ => ?_
  have hstands : m.Stands ts d := ⟨hdepth.le, fun _ => hd⟩
  exact (hguards.tends_until hS hembedding hd (fun act m' howner hle => hstop act m' ⟨howner, hle⟩)
    (fun _ => gather) fuel).1 hm₁ hkeeps.owner (hkeeps.stands hstands).depth hk₁ hL₁ le_rfl

end

/-! Calls from which a coroutine has yielded -/

theorem Machine.running_resumed {S : Regime} {c : CoroutineId} {s : Strand} (hm : m.Steady S ts)
    (hc : (m.heap.coroutine c).status = .suspended) (hs : (m.heap.coroutine c).strand = some s) :
    (m.resumed c).running = s ∧ s.owner = .coroutine c := by
  rw [resumed_eq, hs]
  exact ⟨rfl, hm.owner_stored (hm.not_mem_of_status hc) hs⟩

section

variable {U : Prototype → Prop} (hU : IsCatalog U) {strict : Bool} {embedding : Embedding} {fuel : Nat}
  {s : Strand} {c : CoroutineId} (hm : m.Steady ⟨U, honest, fun _ => False⟩ ts) (hk : m.Kempt honest false)
  (hc : (m.heap.coroutine c).status = .suspended) (hs : (m.heap.coroutine c).strand = some s)

include hU hm hk hc

/-- A coroutine that goes on with a call leaves alone what lies below. -/
theorem lasts_resume (hosts : ∀ name, Tame ⟨U, .host, honest, strict⟩ True (embedding name))
    (hs : (m.heap.coroutine c).strand = some s) (hd : 0 < d) (hdepth : d < s.frames.size)
    (hserves : s.Serves d slot) {i : Nat} (hi : i < slot) (args : List Value) :
    Lasts embedding fuel (Machine.HasLeft (.coroutine c) d) (.coroutine c) i
      (fun run => resume run c args) m := by
  intro P hP v hv
  let C := Custody.ofSlot ⟨U, honest, fun _ => False⟩ (.coroutine c) i
  have hguards : C.Guards (HaltsAt P (.coroutine c) i) :=
    Custody.guards_ofSlot (fun _ _ _ hawake => absurd (fun _ _ => id) hawake) _ _
  have hhosts : ∀ name, Tame (C.toRegime.host strict) C.Strict (embedding name) :=
    Custody.hosts_ofSlot hosts (.coroutine c) i
  have hminds := hguards.minds hU hhosts fuel
  obtain ⟨hrunning, howner⟩ := Machine.running_resumed hm hc hs
  have hresumed := hm.resumed hc
  have hshape := hm.shape_resumed hc
  have hstopped : (m.resumed c).running.Stopped _ (m.resumed c).heap := hshape.resolve_left fun h => by
    simp [hrunning ▸ h.frames] at hdepth
  have htends := continueCall_tends fuel hU hhosts hguards hresumed (hk.resumed hm hc) hd
    (fun act m' h => .inl (hP m' (by rwa [hrunning, howner] at h))) hstopped
    (by rwa [Machine.depth, hrunning]) (hrunning ▸ hserves) args
  have hends := (runCoroutine_paired hU hminds.engines hresumed hshape args).right
  have hlast := htends.leaves.waiting (.coroutine c) i v ⟨rfl, rfl⟩
    (List.mem_map.2 ⟨_, List.mem_cons_self, by rw [hrunning, howner]⟩) (fun _ => hi)
    (by rwa [Machine.slot?, hm.strand?_resumed hc])
  have hback {m' : Machine} (hm' : m'.Steady C.toRegime (c :: ts)) (st : CoroutineStatus)
      (h : m'.slot? (.coroutine c) i = some v) :
      (m'.resumedFrom c ts.head? st).slot? (.coroutine c) i = some v := by
    rwa [Machine.slot?, hm'.strand?_resumedFrom]
  change (Outcome.state (resume (watched embedding (haltAt (HaltsAt P (.coroutine c) i)) fuel) c args m)).slot?
    (.coroutine c) i = some v
  rw [resume_apply, hc]
  dsimp only
  split
  · exact hv
  rw [resumeSuspended_apply, hm.current]
  cases hr : runCoroutine (watched embedding (haltAt (HaltsAt P (.coroutine c) i)) fuel) args (m.resumed c) with
  | ok vs m' =>
    rw [hr] at hends hlast
    exact hback hends.1 .dead hlast
  | error e m' =>
    rw [hr] at hends hlast
    rcases eq_or_ne e .yield with rfl | hne
    · exact hback (hends.2.resolve_left (by simp [Fault.isFatal])).1 .suspended hlast
    · simp only [resumeFailed_of_ne _ _ _ hne]
      cases he : e.isFatal with
      | true => exact hlast
      | false =>
        obtain ⟨hm', hkeeps, -⟩ := hends.2.resolve_left (by simp [he])
        have hreset : C.Leaves (i + 1) m' m'.resetRunning := .resetRunning hm'
        exact hback hm'.resetRunning.1 .dead (hreset.waiting _ i v ⟨rfl, rfl⟩
          (List.mem_map.2 ⟨_, List.mem_cons_self, hkeeps.owner.trans (by rw [hrunning, howner])⟩)
          (fun _ => Nat.lt_succ_self i) hlast)

/-- Where the coroutine is suspended again before the call is over, the call is still under way. -/
theorem serves_resume (hosts : ∀ name, Script ⟨U, .host, honest, strict⟩ (embedding name))
    (hs : (m.heap.coroutine c).strand = some s) (hd : 0 < d) (hdepth : d < s.frames.size)
    (hserves : s.Serves d slot) {args : List Value} {r : Bool × List Value}
    (hr : resume (watched embedding (stopAt (Machine.HasLeft (.coroutine c) d)) fuel) c args m = .ok r m')
    (hc' : (m'.heap.coroutine c).status = .suspended) :
    ∃ s', (m'.heap.coroutine c).strand = some s' ∧ s'.Serves d slot := by
  let C : Custody := ⟨⟨U, honest, fun _ => False⟩, fun _ _ => False, false⟩
  have hfree : ¬ C.Strict := fun ⟨_, _, h⟩ => h
  have hguards : C.Guards fun _ => Machine.HasLeft (.coroutine c) d :=
    ⟨fun _ _ _ _ hawake => absurd (fun _ _ => id) hawake, fun _ _ _ _ => False.elim,
      fun h => by cases h⟩
  have hhosts (name : String) : Tame (C.toRegime.host strict) C.Strict (embedding name) :=
    (hosts name).tame rfl hfree
  obtain ⟨hrunning, howner⟩ := Machine.running_resumed hm hc hs
  have hresumed := hm.resumed hc
  have hshape := hm.shape_resumed hc
  have hstopped : (m.resumed c).running.Stopped _ (m.resumed c).heap := hshape.resolve_left fun h => by
    simp [hrunning ▸ h.frames] at hdepth
  have htends := continueCall_tends fuel hU hhosts hguards hresumed (hk.resumed hm hc) hd
    (fun act m' h => by rwa [hrunning, howner] at h) hstopped (by rwa [Machine.depth, hrunning])
    (hrunning ▸ hserves) args
  have hends := (runCoroutine_paired hU (hguards.minds hU hhosts fuel).engines hresumed hshape args).right
  rw [resume_apply, hc] at hr
  dsimp only at hr
  split at hr
  · obtain ⟨-, rfl⟩ := EStateM.Result.ok.inj hr
    exact ⟨s, hs, hserves⟩
  rw [stopAt_eq_haltAt, resumeSuspended_apply, hm.current] at hr
  cases hrun : runCoroutine (watched embedding (haltAt fun _ => Machine.HasLeft (.coroutine c) d) fuel) args
      (m.resumed c) with
  | ok vs m₁ =>
    rw [hrun] at hr hends
    obtain ⟨-, rfl⟩ := EStateM.Result.ok.inj hr
    simp [Machine.coroutine_resumedFrom hends.1.toChained] at hc'
  | error e m₁ =>
    rw [hrun] at hr hends htends
    rcases eq_or_ne e .yield with rfl | hne
    · obtain ⟨-, rfl⟩ := EStateM.Result.ok.inj hr
      have hm₁ := (hends.2.resolve_left (by simp [Fault.isFatal])).1
      have hnonfatal (e : Fault) (m' : Machine)
          (h : (.error .yield m₁ : Outcome (List Value)) = .error e m') : e.isFatal = false := by
        obtain ⟨rfl, -⟩ := EStateM.Result.error.inj h
        rfl
      have hback := Machine.coroutine_resumedFrom hm₁.toChained .suspended c
      rw [if_pos rfl] at hback
      have hleased := htends.leased hnonfatal
      exact ⟨m₁.running, congrArg Coroutine.strand hback, hleased.serves⟩
    · simp only [resumeFailed_of_ne _ _ _ hne] at hr
      split at hr
      · cases hr
      · next he =>
        obtain ⟨-, rfl⟩ := EStateM.Result.ok.inj hr
        have hm₁ := (hends.2.resolve_left (by simp [he])).1
        simp [Machine.coroutine_resumedFrom hm₁.resetRunning.1.toChained] at hc'

end

/-- While something is run in which a suspended coroutine is not resumed, it stays suspended where it is, and
each slot of its stack has its value until it is assigned to through an upvalue. -/
structure LastsAsleep (embedding : Embedding) (fuel : Nat) (c : CoroutineId) {α : Type} (drive : Run → Action α)
    (m : Machine) : Prop where
  slots : ∀ i v m',
    Outcome.state (drive (watched embedding (haltAt (HaltsAt (Machine.Resumes c) (.coroutine c) i)) fuel) m) =
      m' → (m'.heap.coroutine c).status = .suspended → m.slot? (.coroutine c) i = some v →
        m'.slot? (.coroutine c) i = some v
  rests : ∀ r : Outcome α, drive (watched embedding (stopAt (Machine.Resumes c)) fuel) m = r →
    (∀ e m', r = .error e m' → e.isFatal = false) → (r.state.heap.coroutine c).status = .suspended →
      (m.heap.coroutine c).Rests m.heap r.state.heap (r.state.heap.coroutine c)

theorem Strand.Serves.rests {s s' : Strand} {h h' : Heap} (hserves : s.Serves d slot) (hr : s.Rests h h' s') :
    s'.Serves d slot :=
  ⟨by rw [hr.frames]; exact hserves.frames, by rw [hr.frames, hr.top]; exact hserves.top⟩

/-- A call that is under way is so after its coroutine has slept. -/
theorem LastsAsleep.serves {embedding : Embedding} {fuel : Nat} {c : CoroutineId} {α : Type}
    {drive : Run → Action α} (h : LastsAsleep embedding fuel c drive m) {r : Outcome α}
    (hr : drive (watched embedding (stopAt (Machine.Resumes c)) fuel) m = r)
    (hend : ∀ e m', r = .error e m' → e.isFatal = false)
    (hc : (r.state.heap.coroutine c).status = .suspended) {s : Strand}
    (hs : (m.heap.coroutine c).strand = some s) (hserves : s.Serves d slot) :
    ∃ s', (r.state.heap.coroutine c).strand = some s' ∧ s'.Serves d slot := by
  have hrests := (h.rests r hr hend hc).strand
  rw [hs] at hrests
  cases hs' : (r.state.heap.coroutine c).strand with
  | none => simp [hs'] at hrests
  | some s' =>
    rw [hs', Option.rel_some_some] at hrests
    exact ⟨s', rfl, hserves.rests hrests⟩

section

variable {U : Prototype → Prop} (hU : IsCatalog U) {strict : Bool} {embedding : Embedding} {fuel : Nat}
  (hosts : ∀ name, Tame ⟨U, .host, honest, strict⟩ True (embedding name)) {c : CoroutineId} {α : Type}
  {drive : Run → Action α}

include hU hosts

/-- Whatever is run leaves coroutines alone that are not resumed. -/
theorem lastsAsleep_of_tends (hc : (m.heap.coroutine c).status = .suspended)
    (htends : ∀ (C : Custody) (run : Run), C.toRegime = ⟨U, honest, (· = c)⟩ → C.bounded = false → C.Strict →
      C.Minds run → C.Tends .all m (drive run m))
    (hends : ∀ run, Regime.Engines ⟨U, honest, (· = c)⟩ run run → ∃ d good failing,
      Regime.Ends ⟨U, honest, (· = c)⟩ ts d m good failing (drive run m)) :
    LastsAsleep embedding fuel c drive m where
  slots i v m' hr hm' hv := by
    have hguards : (Custody.ofSlot ⟨U, honest, (· = c)⟩ (.coroutine c) i).Guards
        (HaltsAt (Machine.Resumes c) (.coroutine c) i) :=
      Custody.guards_ofSlot ((Regime.Guards.of_resumes c).quiet · none) (.coroutine c) i
    have hminds := hguards.minds hU (Custody.hosts_ofSlot hosts (.coroutine c) i) fuel
    subst hr
    have htends := htends (.ofSlot _ (.coroutine c) i) _ rfl rfl ⟨_, _, rfl, rfl⟩ hminds
    exact htends.leaves.asleep c i v ⟨rfl, rfl⟩ rfl hc hm' hv
  rests r hr hnonfatal hm' := by
    have hengines := engines_stopAt (S := ⟨U, honest, (· = c)⟩) hU (fun name => (hosts name).script)
      (.of_resumes c) fuel
    obtain ⟨d, good, failing, hends⟩ := hends _ hengines
    rw [hr] at hends
    have hspares : m.Spares ⟨U, honest, (· = c)⟩ r.state := by
      cases r with
      | ok a m' => exact hends.2.1.toSpares
      | error e m' => exact (hends.2.resolve_left fun h => by simp [hnonfatal e m' rfl] at h).2.1.toSpares
    exact (hspares.quiet c rfl hc).resolve_right fun h => by simp [h.2] at hm'

end

section

variable {U : Prototype → Prop} (hU : IsCatalog U) {strict : Bool} {embedding : Embedding} {fuel : Nat}
  (hosts : ∀ name, Tame ⟨U, .host, honest, strict⟩ True (embedding name)) {c : CoroutineId}
  (hk : m.Kempt honest false) (hc : (m.heap.coroutine c).status = .suspended)
  (hm : m.Steady ⟨U, honest, fun _ => False⟩ ts)

include hU hosts hk hc hm

theorem lastsAsleep_job {job : Job} (hready : Regime.Ready ⟨U, honest, (· = c)⟩ ts m job) :
    LastsAsleep embedding fuel c (· job) m := by
  refine lastsAsleep_of_tends hU hosts hc ?_ fun run hrun =>
    ⟨_, _, _, (hrun job ts m hm.requiet hready).right⟩
  rintro ⟨_, place, bounded⟩ run rfl rfl - hminds
  have hsuits : Lease.all.Suits m job := by
    cases job <;> simp [Lease.Suits, Lease.all]
  exact hminds.tends hm.requiet hready hk (.all hk) hsuits

theorem lastsAsleep_script {α : Type} {x : Run → Action α} (hx : Tame ⟨U, .host, honest, strict⟩ True x)
    (hsettled : Conduct.Settled ⟨U, .host, honest, strict⟩ ts d m) : LastsAsleep embedding fuel c x m := by
  have hawake : Regime.Awake ⟨U, honest, (· = c)⟩ ts := by
    rintro t ht rfl
    exact hm.not_mem_of_status hc ht
  refine lastsAsleep_of_tends hU hosts hc ?_ fun run hrun => ⟨_, _, _,
    (hx.script.paired hU hrun hawake (fun _ => id) rfl hm.requiet hsettled (.self _ m)).right⟩
  rintro ⟨_, place, bounded⟩ run rfl rfl hstrict hminds
  rw [← eq_true hstrict] at hx
  exact hx.tends hU hminds hawake (fun _ => id) rfl hm.requiet hsettled hk (.all hk)
    (fun _ hi => False.elim hi) (Nat.zero_le _) (.inr rfl)

end

/-- Calls that are made in a state of a machine leave alone what lies below the slot of the called function. -/
structure Machine.CallsKeepBelow (S : Regime) (strict : Bool) (embedding : Embedding) (fuel : Nat)
    (m : Machine) : Prop where
  /-- Native code calls above all open results, and above all registers of the frame on top. -/
  top : m.running.top ≤ m.callBase
  registers : ∀ f, m.topFrame? = some f → f.isLua = true → f.top ≤ m.callBase
  /-- What lies there lasts while handlers and functions are called from native code, and if they fail. -/
  native : (m.current.isSome → 0 < m.depth) → ∀ i < m.callBase, ∀ held f args,
    Lasts embedding fuel (fun _ => False) m.running.owner i (fun run => callHandlerHolding run held f args) m ∧
    Lasts embedding fuel (fun _ => False) m.running.owner i (fun run => callValueHolding run held f args) m ∧
    Lasts embedding fuel (fun _ => False) m.running.owner i (fun run => call run f args) m ∧
    Lasts embedding fuel (fun _ => False) m.running.owner i (fun run => protectedCall run f args) m
  /-- So does what lies below any other slot in which native code has a value called. -/
  nativeAt : (m.current.isSome → 0 < m.depth) → ∀ slot, m.running.Floor slot → ∀ i < slot, ∀ n wanted held,
    Lasts embedding fuel (fun _ => False) m.running.owner i (fun run => callAt run slot n wanted held) m
  /-- The frame at work has the iterator of a loop called. -/
  iterator : ∀ {d j a f c x n after}, S.AtWork d j a m f c → a.fetch? = some ⟨.tForLoop x n, after⟩ →
    ∀ i < a.window.base + x + 3, Lasts embedding fuel (fun _ => False) m.running.owner i
      (fun run => callIterator run a.window x n) (m.atPc (a.pc + 1))
  /-- The frame at work makes a call, which is over once no frame is left above those that are there. Until
  then it is under way also where the coroutine yields. -/
  call : ∀ {d j a f c x y z after}, S.AtWork d j a m f c → a.fetch? = some ⟨.call x y z, after⟩ →
    (∀ i < a.window.base + x,
      Lasts embedding fuel (HasLeft m.running.owner m.depth) m.running.owner i (runCall embedding d a) m) ∧
    ∀ e m', runCall embedding d a (watched embedding (stopAt (HasLeft m.running.owner m.depth)) fuel) m =
      .error e m' → e.isFatal = false →
        m'.running.owner = m.running.owner ∧ m'.running.Serves m.depth (a.window.base + x)
  /-- A call under way lasts while its coroutine sleeps. -/
  asleep : ∀ {c}, (m.heap.coroutine c).status = .suspended →
    (∀ ts job, m.Steady S ts → Regime.Ready ⟨S.program, S.honest, (· = c)⟩ ts m job →
      LastsAsleep embedding fuel c (· job) m) ∧
    ∀ ts d {α : Type} (x : Run → Action α), m.Steady S ts → Tame ⟨S.program, .host, S.honest, strict⟩ True x →
      Conduct.Settled ⟨S.program, .host, S.honest, strict⟩ ts d m → LastsAsleep embedding fuel c x m
  /-- It goes on when this is resumed, until it is over or the coroutine yields again. -/
  resumed : ∀ {c s d slot}, (m.heap.coroutine c).status = .suspended →
    (m.heap.coroutine c).strand = some s → 0 < d → d < s.frames.size → s.Serves d slot → ∀ args,
      (∀ i < slot, Lasts embedding fuel (HasLeft (.coroutine c) d) (.coroutine c) i
        (fun run => resume run c args) m) ∧
      ∀ r m', resume (watched embedding (stopAt (HasLeft (.coroutine c) d)) fuel) c args m = .ok r m' →
        (m'.heap.coroutine c).status = .suspended →
          ∃ s', (m'.heap.coroutine c).strand = some s' ∧ s'.Serves d slot

/-- Whatever is called writes nothing below the slot of the called function, from when the call starts until it
is over or its error is caught, but for slots that are assigned to through upvalues. -/
theorem calls_keep_below {U : Prototype → Prop} (hU : IsCatalog U) {honest strict : Bool}
    (hm : m.Occurs ⟨U, .host, honest, strict⟩) {embedding : Embedding}
    (hosts : ∀ name, Tame ⟨U, .host, honest, strict⟩ True (embedding name)) (fuel : Nat) :
    m.CallsKeepBelow ⟨U, honest, fun _ => False⟩ strict embedding fuel := by
  obtain ⟨ts, hsteady⟩ := hm.reachable.steady hU
  have hkempt := hm.kempt hU
  have hawake : Regime.Awake ⟨U, honest, fun _ => False⟩ ts := fun _ _ => id
  have hpos (h : m.current.isSome → 0 < m.depth) (hts : ts ≠ []) : 0 < m.depth := by
    refine h ?_
    rw [hsteady.current]
    cases ts with
    | nil => exact absurd rfl hts
    | cons t ts => rfl
  constructor
  case top => exact m.top_le_callBase
  case registers =>
    intro f hf hlua
    simp [Machine.callBase, hf, hlua]
  case native =>
    intro hd i hi held f args
    have hd := hpos hd
    refine ⟨?_, ?_, ?_, ?_⟩ <;>
      refine lasts_of_tends hU hosts (L := m.nested) hi fun _ _ hminds => ?_
    · exact callHandler_tends hU hminds hawake hsteady hd hkempt m.leased_nested le_rfl le_rfl f args held
    · exact callValue_tends hU hminds hawake hsteady hd hkempt m.leased_nested le_rfl le_rfl f args held
    · exact call_tends hU hminds hawake hsteady hd hkempt m.leased_nested le_rfl le_rfl f args
    · exact protectedCall_tends hU hminds hawake hsteady hd hkempt m.leased_nested le_rfl le_rfl f args
  case nativeAt =>
    intro hd slot hslot i hi n wanted held
    refine lasts_of_tends hU hosts (L := ⟨m.depth, slot, m.running.openCells⟩) hi
      fun _ _ hminds => ?_
    exact callAt_tends hminds hawake hsteady (hpos hd) hkempt (.fresh m le_rfl rfl) le_rfl hslot le_rfl n
      wanted held
  case iterator =>
    intro d j a f c x n after hwork hfetch i hi
    have hpos := Nat.zero_lt_of_lt hwork.lt_depth
    have hdepth : (m.atPc (a.pc + 1)).depth = m.depth := Array.size_modify
    have hsteady' := hsteady.atPc (a.pc + 1)
    obtain ⟨g, hwork', -⟩ := hwork.atPc (a.pc + 1)
    refine lasts_of_tends hU hosts (m := m.atPc (a.pc + 1))
      (L := ⟨m.depth, a.window.base + x + 3, m.running.openCells⟩) hi fun _ _ hminds => ?_
    exact callIterator_tends hU hminds hawake hsteady' (fun _ => hdepth.symm ▸ hpos)
      (hkempt.atPc hpos (a.pc + 1)) (.fresh _ hdepth.le rfl) hdepth.ge
      ((hwork'.floor hsteady').mono (by omega)) le_rfl n
  case call =>
    intro d j a f c x y z after hwork hfetch
    constructor
    · intro i hi
      refine lasts_of_tends hU hosts
        (L := ⟨m.depth, a.window.base + x, m.running.openCells⟩) hi fun hlast hguards _ => ?_
      exact runCall_tends fuel hU (Custody.hosts_ofSlot hosts _ i) hguards hsteady hkempt hawake
        (fun _ m' h => .inl (hlast m' h)) hwork hfetch
    · intro e m' hr he
      let C : Custody := ⟨⟨U, honest, fun _ => False⟩, fun _ _ => False, false⟩
      have hfree : ¬ C.Strict := by
        rintro ⟨_, _, h⟩
        exact h
      have hscripts (name : String) := (hosts name).script
      have hguards : C.Guards fun _ => Machine.HasLeft m.running.owner m.depth :=
        ⟨fun _ _ _ _ h => absurd (fun _ _ => id) h, fun _ _ _ _ => False.elim, fun h => by cases h⟩
      have hhosts (name : String) : Tame (C.toRegime.host strict) C.Strict (embedding name) :=
        (hscripts name).tame rfl hfree
      have htends := runCall_tends (C := C) fuel hU hhosts hguards hsteady hkempt hawake (fun _ _ => id)
        hwork hfetch
      have hends := runCall_ends (C := C) hU (hguards.minds hU hhosts fuel).engines hscripts hsteady hawake hwork
      rw [stopAt_eq_haltAt] at hr
      rw [hr] at htends hends
      refine ⟨(hends.2.resolve_left fun h => by simp [he] at h).2.1.owner, (htends.leased ?_).serves⟩
      intro e' m'' h
      obtain ⟨rfl, -⟩ := EStateM.Result.error.inj h
      exact he
  case asleep =>
    intro c hc
    exact ⟨fun ts job hm hready => lastsAsleep_job hU hosts hkempt hc hm hready,
      fun ts d α x hm hx hsettled => lastsAsleep_script hU hosts hkempt hc hm hx hsettled⟩
  case resumed =>
    intro c s d slot hc hs hd hdepth hserves args
    exact ⟨fun i hi => lasts_resume hU hsteady hkempt hc hosts hs hd hdepth hserves hi args,
      fun r m' hr hc' => serves_resume hU hsteady hkempt hc (fun name => (hosts name).script) hs hd hdepth
        hserves hr hc'⟩

/-- Whether a slot is there and holds true. -/
def holdsTrue : Option Value → Bool
  | some (.bool true) => true
  | _ => false

theorem eq_of_holdsTrue : ∀ {o : Option Value}, holdsTrue o = true → o = some (.bool true)
  | some (.bool true), _ => rfl

theorem calls_keep_below_lending :
    Machine.lending.slot? (.main 0) 1 = some (.bool true) ∧ ∀ f args,
      (Outcome.state (callHandler
        (watched (fun _ _ => pure 0) (haltAt (HaltsAt (fun _ => False) (.main 0) 1)) 9) f args
        Machine.lending)).slot? (.main 0) 1 = some (.bool true) := by
  have hslot : Machine.lending.slot? (.main 0) 1 = some (.bool true) :=
    eq_of_holdsTrue (by decide +kernel)
  have howner : Machine.lending.running.owner = .main 0 := by decide +kernel
  have hosts (name : String) :
      Tame ⟨Prototype.lender.Contains, .host, true, true⟩ True ((fun _ _ => pure 0 : Embedding) name) := .pure 0
  have hkeep := calls_keep_below Prototype.lender_isProgram.isCatalog Machine.lending_occurs hosts 9
  refine ⟨hslot, fun f args => ?_⟩
  have hlasts := (hkeep.native (by decide +kernel) 1 (by decide +kernel) args f args).1
  rw [howner] at hlasts
  exact hlasts _ (fun _ => id) _ hslot

end LuaMachine
