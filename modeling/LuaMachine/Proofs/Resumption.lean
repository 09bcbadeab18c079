import LuaMachine.Proofs.NativeCall

/-!
Coroutines are resumed alike on engines that are alike, and so all routines do the same.
-/

namespace LuaMachine

/-! Leaving a frame -/

def Machine.popped (m : Machine) : Machine := m.modifyRunning fun s => s.modifyFrames (·.pop)

theorem Machine.erase_popped (m : Machine) : m.erase.popped = m.popped.erase :=
  m.erase_modifyRunning fun s => by simp [Strand.erase, Strand.modifyFrames]

theorem Machine.frames_popped (m : Machine) :
    m.popped.running.frames.toList = m.running.frames.toList.dropLast :=
  Array.toList_pop

/-- What leaving a frame does once the frame is gone. -/
def leaveFrom (first n : Nat) : Option Frame → Action Unit
  | none => pure ()
  | some f => do
    let count := f.wanted.getD n
    ensureStack (f.slot + count + Limit.extraStack)
    moveSlots f.slot first (min count n)
    clearSlots (f.slot + n) (count - n)
    match f.wanted with
    | none => setTop (f.slot + n)
    | some _ =>
      match ← view (·.topFrame?) with
      | some caller => setTop (if caller.isLua then caller.top else f.slot + count)
      | none => setTop (f.slot + count)

theorem leaveFrame_apply (first n : Nat) (m : Machine) :
    leaveFrame first n m = leaveFrom first n m.topFrame? m.popped := by
  simp only [leaveFrame, popFrame?, Action.bind_apply, Action.view_apply, Action.modify_apply,
    Action.pure_apply]
  cases m.topFrame? <;> rfl

/-- The top is left where the call that is over was to leave it. -/
theorem leaveFrame_topped {first n : Nat} {m m' : Machine} {f : Frame} {u : Unit}
    (hf : m.topFrame? = some f) (h : leaveFrame first n m = .ok u m') :
    m'.Topped f.slot f.wanted := by
  rw [leaveFrame_apply, hf] at h
  obtain ⟨v, m₁, -, h⟩ := Action.bind_eq_ok.1 h
  obtain ⟨v, m₂, -, h⟩ := Action.bind_eq_ok.1 h
  obtain ⟨v, m₃, -, h⟩ := Action.bind_eq_ok.1 h
  cases hwanted : f.wanted with
  | none =>
    simp only [hwanted] at h
    change f.slot ≤ m'.running.top
    rw [Action.leaves_setTop _ m₃ u m' h]
    exact Nat.le_add_right ..
  | some k =>
    simp only [hwanted, Action.bind_ok (Action.view_apply _ _)] at h
    intro g hg hlua
    cases htop : m₃.topFrame? with
    | none =>
      simp only [htop] at h
      obtain ⟨-, rfl⟩ := EStateM.Result.ok.inj h
      exact absurd (htop.symm.trans hg) nofun
    | some caller =>
      simp only [htop] at h
      obtain ⟨-, rfl⟩ := EStateM.Result.ok.inj h
      obtain rfl : caller = g := Option.some.inj (htop.symm.trans hg)
      change caller.top ≤ if caller.isLua then caller.top else _
      rw [if_pos hlua]

theorem Plain.leaveFrom {U : Prototype → Prop} (first n : Nat) (o : Option Frame) :
    Plain U (leaveFrom first n o) := by
  cases o with
  | none => exact .pure ()
  | some f =>
    refine .andThen (.primitive (.ensureStack _)) fun _ => ?_
    refine .andThen (.moveSlots _ _ _) fun _ => .andThen (.clearSlots _ _) fun _ => ?_
    cases f.wanted with
    | none => exact .primitive (.setTop _)
    | some w =>
      refine .ofTopFrame (fun o => ?_) fun o => ?_
      · cases o <;> rfl
      · cases o <;> exact .primitive (.setTop _)

open Setting

variable {S : Setting} {α : Type} {m : Machine} {k : Bool}

namespace Setting

theorem Sound.popped (hm : S.Sound m) : S.Sound m.popped := by
  refine ⟨hm.closures, hm.caches, hm.coroutines, fun f hf => ?_, hm.parked⟩
  have hf' : f ∈ m.running.frames.toList.dropLast := m.frames_popped ▸ Array.mem_toList_iff.2 hf
  exact hm.running f (Array.mem_toList_iff.1 (List.mem_of_mem_dropLast hf'))

theorem kept_popped (m : Machine) : m.Kept m.popped := ⟨.refl _, rfl, le_rfl, .refl _⟩

end Setting

/-- Leaving a frame removes it and no other one. -/
theorem leaveFrame_alike (hm : S.Sound m) (first n : Nat) :
    S.Alike id (leaveFrame first n (S.left m)) (leaveFrame first n m)
      (S.Settles false m.popped) := by
  have hleft : leaveFrom first n (S.left m).topFrame? = leaveFrom first n m.topFrame? := by
    refine left_eq (f := fun m => leaveFrom first n m.topFrame?) (fun m => ?_) m
    rw [Machine.erase_topFrame?]
    cases m.topFrame? <;> rfl
  rw [leaveFrame_apply, leaveFrame_apply, hleft, left_comm Machine.erase_popped]
  exact (Plain.leaveFrom first n _).alike hm.popped

/-! Running a coroutine -/

namespace Setting

/-- The outcome of running a coroutine until it ends or yields. -/
def Ends (S : Setting) (m : Machine) {α : Type} : Outcome α → Prop
  | .ok _ m' => S.Sound m' ∧ m.Kept m' ∧ m'.running.frames = #[]
  | .error e m' => e.isFatal = true ∨ S.Stops m 0 (fun m' =>
      m'.running.boundaries = 0 ∧
        Frame.Suspended S.tails m'.heap m'.running.frames.toList) e m'

theorem Stops.to_bottom {depth : Nat} {m' : Machine} {e : Fault} {p q : Machine → Prop}
    (h : S.Stops m depth p e m') (hpq : p m' → q m') : S.Stops m 0 q e m' :=
  ⟨h.sound, h.kept, List.nil_prefix, fun he => hpq (h.yield he)⟩

theorem Stops.after_kept {m₁ m' : Machine} {e : Fault} {q : Machine → Prop}
    (hk : m.Kept m₁) (h : S.Stops m₁ 0 q e m') : S.Stops m 0 q e m' :=
  ⟨h.sound, hk.trans h.kept, List.nil_prefix, h.yield⟩

theorem Ends.after {m₁ : Machine} {r : Outcome α} (hk : m.Kept m₁) (hr : S.Ends m₁ r) :
    S.Ends m r := by
  cases r with
  | ok a m' => exact ⟨hr.1, hk.trans hr.2.1, hr.2.2⟩
  | error e m' => exact hr.imp_right (.after_kept hk)

theorem Ends.of_runs {r : Outcome Unit} (hr : S.Runs 0 m r) : S.Ends m r := by
  cases r with
  | ok a m' => exact ⟨hr.1, hr.2.1, Array.toList_inj.1 hr.2.2⟩
  | error e m' =>
    refine hr.imp_right fun h => h.to_bottom fun ⟨hb, above, hf, hs⟩ => ⟨hb, ?_⟩
    rwa [hf]

theorem Ends.of_settles {r : Outcome α} (hf : m.running.frames = #[])
    (hr : S.Settles false m r) : S.Ends m r := by
  cases r with
  | ok a m' => exact ⟨hr.sound, hr.kept, hr.frames.trans hf⟩
  | error e m' =>
    exact hr.imp_right fun h => h.to_bottom fun hy => absurd hy.1 Bool.false_ne_true

/-- Basic actions may come first. -/
theorem Alike.ends_bind {β : Type} {m₀ : Machine} {xl xr : Action α} {fl fr : α → Action β}
    (hk : m.Kept m₀) (hx : S.Alike id (xl (S.left m)) (xr m) (S.Settles false m₀))
    (hf : ∀ a m', xr m = .ok a m' → S.Calm m₀ m' →
      S.Alike id (fl a (S.left m')) (fr a m') (S.Ends m')) :
    S.Alike id ((xl >>= fl) (S.left m)) ((xr >>= fr) m) (S.Ends m) :=
  hx.bind (fun a m' hr h => (hf a m' hr h).imp (.after (hk.trans h.kept))) fun _ _ h =>
    h.imp_right fun h => .after_kept hk (h.to_bottom fun hy => absurd hy.1 Bool.false_ne_true)

end Setting

/-- The results of a coroutine that has ended. -/
def gather : Action (List Value) := do
  let top ← view (·.running.top)
  let vs ← takeSlots 0 top
  setTop 0
  pure vs

def beginCoroutine (run : Run) (args : List Value) : Action (List Value) := do
  ensureStack (1 + args.length + Limit.extraStack)
  writeSlots 1 args
  setTop (1 + args.length)
  run (.call 0 args.length none)
  gather

def continueCoroutine (run : Run) (args : List Value) : Action (List Value) := do
  let first ← view (·.running.top)
  ensureStack (first + args.length + Limit.extraStack)
  writeSlots first args
  setTop (first + args.length)
  leaveFrame first args.length
  run (.execute 0)
  gather

theorem runCoroutine_apply (run : Run) (args : List Value) (m : Machine) :
    runCoroutine run args m =
      if m.running.frames.isEmpty then beginCoroutine run args m
      else continueCoroutine run args m := by
  simp only [runCoroutine, Action.bind_apply, Action.view_apply]
  split <;> rfl

theorem gather_alike (hm : S.Sound m) (hf : m.running.frames = #[]) :
    S.Alike id (gather (S.left m)) (gather m) (S.Ends m) :=
  ((Plain.andThen (.view (·.running.top) fun _ => rfl) fun top => .andThen (.takeSlots 0 top)
    fun vs => .andThen (.primitive (.setTop 0)) fun _ => .pure vs).alike hm).imp (.of_settles hf)

section

variable (hS : S.Valid) {runl runr : Run} (hrun : S.Engines runl runr)

include hrun

/-- The last frames of a coroutine are run, and its results collected. -/
theorem finish_alike {job : Job} (hm : S.Sound m) (hready : S.Ready job m)
    (hd : depthAfter job m = 0) (hjob : S.leftJob job = job) :
    S.Alike id ((runl job >>= fun _ => gather) (S.left m)) ((runr job >>= fun _ => gather) m)
      (S.Ends m) := by
  have h := hrun job m hm hready
  rw [hd, hjob] at h
  refine h.bind (fun _ m' _ hr => ?_) fun e m' hr => Ends.of_runs hr
  exact (gather_alike hr.1 (Array.toList_inj.1 hr.2.2)).imp (.after hr.2.1)

theorem beginCoroutine_alike (hm : S.Sound m) (hf : m.running.frames = #[]) (args : List Value) :
    S.Alike id (beginCoroutine runl args (S.left m)) (beginCoroutine runr args m) (S.Ends m) := by
  refine Alike.ends_bind (.refl m) ((Plain.primitive (.ensureStack _)).alike hm) fun _ m₁ _ h₁ => ?_
  refine Alike.ends_bind (.refl m₁) ((Plain.writeSlots 1 args).alike h₁.sound) fun _ m₂ _ h₂ => ?_
  refine Alike.ends_bind (.refl m₂) ((Plain.primitive (.setTop _)).alike h₂.sound)
    fun _ m₃ _ h₃ => ?_
  refine finish_alike hrun h₃.sound trivial ?_ rfl
  simp [depthAfter, Machine.depth, h₃.frames, h₂.frames, h₁.frames, hf]

/-- The host function that yielded is left with the new values as its results. -/
theorem continueCoroutine_alike (hm : S.Sound m)
    (hsus : Frame.Suspended S.tails m.heap m.running.frames.toList) (args : List Value) :
    S.Alike id (continueCoroutine runl args (S.left m)) (continueCoroutine runr args m)
      (S.Ends m) := by
  refine Alike.ends_bind (.refl m) ((Plain.view (·.running.top) fun _ => rfl).alike hm)
    fun first m₁ _ h₁ => ?_
  refine Alike.ends_bind (.refl m₁) ((Plain.primitive (.ensureStack _)).alike h₁.sound)
    fun _ m₂ _ h₂ => ?_
  refine Alike.ends_bind (.refl m₂) ((Plain.writeSlots first args).alike h₂.sound)
    fun _ m₃ _ h₃ => ?_
  refine Alike.ends_bind (.refl m₃) ((Plain.primitive (.setTop _)).alike h₃.sound)
    fun _ m₄ _ h₄ => ?_
  refine Alike.ends_bind (kept_popped m₄) (leaveFrame_alike h₄.sound first args.length)
    fun _ m₅ hleave h₅ => ?_
  refine finish_alike hrun h₅.sound ?_ rfl rfl
  obtain ⟨waiting, host, hframes, hwaits, hlinked⟩ := hsus
  have hframes₄ : m₄.running.frames.toList = waiting ++ [host] := by
    rw [h₄.frames, h₃.frames, h₂.frames, h₁.frames, hframes]
  have hframes₅ : m₅.running.frames.toList = waiting := by
    rw [h₅.frames, Machine.frames_popped, hframes₄, List.dropLast_concat]
  have hx := (h₁.kept.trans (h₂.kept.trans (h₃.kept.trans (h₄.kept.trans
    ((kept_popped m₄).trans h₅.kept))))).closures
  rw [hframes] at hlinked
  exact waiting_of_topped hframes₅ (fun f hf => (hwaits f hf).mono hx) (hlinked.mono hx)
    (leaveFrame_topped (topFrame?_of_append hframes₄) hleave)

/-- A coroutine that may be run comes to its end, yields again or fails. -/
theorem runCoroutine_alike (hm : S.Sound m) (hr : m.running.Resumable S.tails m.heap)
    (args : List Value) :
    S.Alike id (runCoroutine runl args (S.left m)) (runCoroutine runr args m) (S.Ends m) := by
  have hempty : (S.left m).running.frames.isEmpty = m.running.frames.isEmpty :=
    left_eq (f := (·.running.frames.isEmpty)) (fun m => by simp [Array.isEmpty]) m
  rw [runCoroutine_apply, runCoroutine_apply, hempty]
  rcases hr.frames with hf | hsus
  · simp only [hf, Array.isEmpty_empty, ↓reduceIte]
    exact beginCoroutine_alike hrun hm hf args
  · have hne : m.running.frames.isEmpty = false := by
      obtain ⟨waiting, host, hframes, -⟩ := hsus
      rw [← Array.isEmpty_toList, hframes]
      simp
    simp only [hne, Bool.false_eq_true, ↓reduceIte]
    exact continueCoroutine_alike hrun hm hsus args

end

/-! Switching strands -/

theorem Heap.getElem?_modifyCoroutine (h : Heap) (c : CoroutineId) (f : Coroutine → Coroutine)
    (i : Nat) : (h.modifyCoroutine c f).coroutines[i]? =
      if c.index = i then h.coroutines[i]?.map f else h.coroutines[i]? := by
  simp [modifyCoroutine, modifyCoroutines, Array.getElem?_modify]

namespace Setting

/-- A coroutine with another status is sound unless it becomes suspended. -/
theorem sound_setStatus (hm : S.Sound m) (c : CoroutineId) (status : CoroutineStatus)
    (hst : status ≠ .suspended) : S.Sound (m.setStatus c status) := by
  refine ⟨hm.closures, hm.caches, fun co hco => ?_, hm.running, hm.parked⟩
  have hx : m.heap.Extends (m.setStatus c status).heap := .of_eq rfl
  rcases Heap.mem_modifyCoroutine hco with hmem | ⟨hmem, rfl⟩
  · exact (hm.coroutines co hmem).mono hx (.refl co)
  · exact ⟨fun s hs => ((hm.coroutines _ hmem).strand s hs).mono hx (.refl s),
      fun h => absurd h hst⟩

theorem sound_setCurrentStatus (hm : S.Sound m) (status : CoroutineStatus)
    (hst : status ≠ .suspended) : S.Sound (m.setCurrentStatus status) := by
  unfold Machine.setCurrentStatus
  split
  · exact sound_setStatus hm _ status hst
  · exact hm

end Setting

theorem Machine.kept_setCurrentStatus (m : Machine) (status : CoroutineStatus) :
    m.Kept (m.setCurrentStatus status) ∧ (m.setCurrentStatus status).running = m.running ∧
      (m.setCurrentStatus status).parked = m.parked := by
  unfold setCurrentStatus
  split
  · exact ⟨⟨.of_eq rfl, rfl, le_rfl, .refl _⟩, rfl, rfl⟩
  · exact ⟨.refl m, rfl, rfl⟩

/-- The state in which a coroutine is run. -/
def Machine.resumed (m : Machine) (c : CoroutineId) : Machine :=
  { m.switchTo c with nativeCalls := (m.switchTo c).nativeCalls + 1 }

/-- The state after a coroutine was run, in which it has another status. -/
def Machine.resumedFrom (m : Machine) (c : CoroutineId) (resumer : Option CoroutineId)
    (status : CoroutineStatus) : Machine :=
  ({ m with nativeCalls := m.nativeCalls - 1 }.switchBack c resumer).setStatus c status

def Machine.withoutYielded (m : Machine) : Machine := { m with yielded := [] }

/-- What a resumption makes of a fault in the coroutine. -/
def resumeFailed (c : CoroutineId) (resumer : Option CoroutineId) (m : Machine) :
    Fault → Outcome (Bool × List Value)
  | .yield =>
    .ok (true, (m.resumedFrom c resumer .suspended).yielded)
      (m.resumedFrom c resumer .suspended).withoutYielded
  | e =>
    if e.isFatal then .error e m
    else .ok (false, [e.value]) (m.resetRunning.resumedFrom c resumer .dead)

theorem resumeFailed_of_ne (c : CoroutineId) (resumer : Option CoroutineId) (m : Machine) {e : Fault}
    (he : e ≠ .yield) : resumeFailed c resumer m e =
      if e.isFatal then .error e m
      else .ok (false, [e.value]) (m.resetRunning.resumedFrom c resumer .dead) := by
  cases e <;> first | rfl | exact absurd rfl he

theorem resumeSuspended_apply (run : Run) (c : CoroutineId) (args : List Value) (m : Machine) :
    resumeSuspended run c args m =
      match runCoroutine run args (m.resumed c) with
      | .ok vs m' => .ok (true, vs) (m'.resumedFrom c m.current .dead)
      | .error e m' => resumeFailed c m.current m' e := by
  simp only [resumeSuspended, Action.bind_apply, Action.view_apply, Action.modify_apply,
    Action.attempt_apply]
  generalize hr : runCoroutine run args _ = r
  have hr' : runCoroutine run args (m.resumed c) = r := hr
  rw [hr']
  cases r with
  | ok vs m' => rfl
  | error e m' => cases e <;> rfl

theorem Heap.coroutine_mem {h : Heap} {c : CoroutineId}
    (hc : (h.coroutine c).status ≠ .dead) : h.coroutine c ∈ h.coroutines := by
  unfold coroutine at hc ⊢
  cases hget : h.coroutines[c.index]? with
  | none =>
    rw [hget] at hc
    exact absurd rfl hc
  | some co => exact Array.mem_of_getElem? hget

namespace Setting

/-- The coroutine runs in place of the strand that is parked. -/
theorem sound_resumed (hm : S.Sound m) {c : CoroutineId}
    (hc : (m.heap.coroutine c).status = .suspended) :
    S.Sound (m.resumed c) ∧ (m.resumed c).running.Resumable S.tails (m.resumed c).heap ∧
      m.heap.Extends (m.resumed c).heap ∧ (m.resumed c).parked = m.running :: m.parked := by
  have hmem : m.heap.coroutine c ∈ m.heap.coroutines := Heap.coroutine_mem (by simp [hc])
  obtain ⟨s, hs, hres⟩ := (hm.coroutines _ hmem).suspended hc
  obtain ⟨m₁, hdef⟩ : ∃ m₁, m₁ = m.modifyHeap fun h =>
    h.modifyCoroutine c fun _ => ⟨.running, none⟩ := ⟨_, rfl⟩
  have hx₁ : m.heap.Extends m₁.heap := hdef ▸ .of_eq rfl
  have hm₁ : S.Sound m₁ := by
    subst hdef
    refine ⟨hm.closures, hm.caches, fun co hco => ?_, hm.running, hm.parked⟩
    rcases Heap.mem_modifyCoroutine hco with hmem | ⟨-, rfl⟩
    · exact (hm.coroutines co hmem).mono hx₁ (.refl co)
    · exact ⟨by simp, by simp⟩
  have hm₂ := sound_setCurrentStatus hm₁ .normal (by simp)
  obtain ⟨hk₂, hrunning₂, hparked₂⟩ := m₁.kept_setCurrentStatus .normal
  have hx₂ := hx₁.trans hk₂.closures
  have hresumed : m.resumed c =
      { m₁.setCurrentStatus .normal with
        running := s
        parked := m.running :: m.parked
        current := some c
        nativeCalls := (m₁.setCurrentStatus .normal).nativeCalls + 1 } := by
    simp only [Machine.resumed, Machine.switchTo, hs, Option.getD_some, ← hdef, hrunning₂, hparked₂]
    rw [hdef]
    rfl
  rw [hresumed]
  refine ⟨⟨hm₂.closures, hm₂.caches, hm₂.coroutines, ?_, ?_⟩, hres.mono hx₂ (.refl s), hx₂, rfl⟩
  · exact ((hm.coroutines _ hmem).strand s hs).mono hx₂ (.refl s)
  · intro t ht
    rcases List.mem_cons.1 ht with rfl | ht
    · exact hm.running.mono hx₂ (.refl _)
    · exact (hm.parked t ht).mono hx₂ (.refl t)

/-- A heap in which a coroutine has got back the strand that runs; the others are sound. -/
structure Placed (S : Setting) (m : Machine) (c : CoroutineId) (h : Heap) : Prop where
  closures : h.closures = m.heap.closures
  caches : h.caches = m.heap.caches
  coroutines : ∀ i co, h.coroutines[i]? = some co →
    if c.index = i then co.strand = some m.running else co.Sound S.tails m.heap

variable {c : CoroutineId} {h : Heap}

theorem placed_switchBack (hm : S.Sound m) (c : CoroutineId) :
    S.Placed m c (m.heap.modifyCoroutine c fun ⟨status, _⟩ => ⟨status, some m.running⟩) := by
  refine ⟨rfl, rfl, fun i co hco => ?_⟩
  rw [Heap.getElem?_modifyCoroutine] at hco
  split_ifs at hco ⊢
  · obtain ⟨co', -, rfl⟩ := Option.map_eq_some_iff.1 hco
    rfl
  · exact hm.coroutines co (Array.mem_of_getElem? hco)

theorem Placed.setStatus (hh : S.Placed m c h) (r : CoroutineId) (status : CoroutineStatus)
    (hst : status ≠ .suspended) :
    S.Placed m c (h.modifyCoroutine r fun ⟨_, strand⟩ => ⟨status, strand⟩) := by
  refine ⟨hh.closures, hh.caches, fun i co hco => ?_⟩
  rw [Heap.getElem?_modifyCoroutine] at hco
  split_ifs at hco
  · obtain ⟨co', hco', rfl⟩ := Option.map_eq_some_iff.1 hco
    have hco'' := hh.coroutines i co' hco'
    split_ifs at hco'' ⊢
    · exact hco''
    · exact ⟨hco''.strand, fun h => absurd h hst⟩
  · exact hh.coroutines i co hco

/-- The coroutine may get any status that goes with the strand. -/
theorem Placed.sound_setStatus (hm : S.Sound m) (hh : S.Placed m c h) {status : CoroutineStatus}
    (hst : status = .suspended → m.running.Resumable S.tails m.heap) :
    ∀ co ∈ (h.modifyCoroutine c fun ⟨_, strand⟩ => ⟨status, strand⟩).coroutines,
      co.Sound S.tails m.heap := by
  intro co hco
  obtain ⟨i, hi⟩ := Array.mem_iff_getElem?.1 hco
  rw [Heap.getElem?_modifyCoroutine] at hi
  split_ifs at hi with hc
  · obtain ⟨co', hco', rfl⟩ := Option.map_eq_some_iff.1 hi
    have hstrand := hh.coroutines i co' hco'
    rw [if_pos hc] at hstrand
    refine ⟨fun s hs => ?_, fun h => ⟨m.running, hstrand, hst h⟩⟩
    obtain rfl := Option.some.inj (hstrand.symm.trans hs)
    exact hm.running
  · have hsound := hh.coroutines i co hi
    rwa [if_neg hc] at hsound

theorem exists_placed (hm : S.Sound m) (c : CoroutineId) (resumer : Option CoroutineId)
    (status : CoroutineStatus) {s : Strand} {parked : List Strand} (hp : m.parked = s :: parked) :
    ∃ h, S.Placed m c h ∧ m.resumedFrom c resumer status =
      { m with
        heap := h.modifyCoroutine c fun ⟨_, strand⟩ => ⟨status, strand⟩
        running := s
        parked := parked
        current := resumer
        nativeCalls := m.nativeCalls - 1 } := by
  have hplaced := placed_switchBack hm c
  simp only [Machine.resumedFrom, Machine.switchBack, hp]
  cases resumer with
  | none => exact ⟨_, hplaced, rfl⟩
  | some r => exact ⟨_, hplaced.setStatus r .running (by simp), rfl⟩

/-- Back on the strand that was parked all is as it was before. -/
theorem calm_resumedFrom {m' : Machine} (resumer : Option CoroutineId) (status : CoroutineStatus)
    (hm' : S.Sound m') (hx : m.heap.Extends m'.heap)
    (hparked : Strand.AllStill (m.running :: m.parked) m'.parked)
    (hst : status = .suspended → m'.running.Resumable S.tails m'.heap) :
    S.Calm m (m'.resumedFrom c resumer status) := by
  obtain ⟨s, parked, hs, hrest, hp⟩ := List.forall₂_cons_left_iff.1 hparked
  obtain ⟨h, hplaced, heq⟩ := exists_placed hm' c resumer status hp
  have hsound (t : Strand) (ht : t ∈ s :: parked) : t.Sound m'.heap := hm'.parked t (hp ▸ ht)
  have hx' : m'.heap.Extends (h.modifyCoroutine c fun ⟨_, strand⟩ => ⟨status, strand⟩) :=
    .of_eq hplaced.closures
  rw [heq]
  refine ⟨⟨?_, ?_, fun co hco => ?_, ?_, fun t ht => ?_⟩,
    ⟨hx.trans hx', hs.boundaries, hs.stack, hrest⟩, hs.frames⟩
  · exact fun d hd => hm'.closures d (hplaced.closures ▸ hd)
  · exact fun d hd => hm'.caches d (hplaced.caches ▸ hd)
  · exact (hplaced.sound_setStatus hm' hst co hco).mono hx' (.refl co)
  · exact (hsound s List.mem_cons_self).mono hx' (.refl s)
  · exact (hsound t (List.mem_cons_of_mem _ ht)).mono hx' (.refl t)

end Setting

theorem Setting.Calm.withoutYielded {m' : Machine} (h : S.Calm m m') :
    S.Calm m m'.withoutYielded :=
  ⟨⟨h.sound.closures, h.sound.caches, h.sound.coroutines, h.sound.running, h.sound.parked⟩,
    ⟨h.kept.closures, h.kept.boundaries, h.kept.stack, h.kept.parked⟩, h.frames⟩

theorem resume_apply (run : Run) (c : CoroutineId) (args : List Value) (m : Machine) :
    resume run c args m =
      match (m.heap.coroutine c).status with
      | .suspended =>
        if m.options.maxNativeCalls ≤ m.nativeCalls then
          .ok (false, [.str "C stack overflow"]) m
        else resumeSuspended run c args m
      | .dead => .ok (false, [.str "cannot resume dead coroutine"]) m
      | _ => .ok (false, [.str "cannot resume non-suspended coroutine"]) m := by
  simp only [resume, Action.bind_apply, Action.view_apply]
  cases (m.heap.coroutine c).status with
  | suspended =>
    simp only [Action.bind_apply, Action.view_apply, decide_eq_true_eq]
    split <;> rfl
  | _ => rfl

theorem yieldValues_apply (vs : List Value) (m : Machine) :
    (yieldValues vs : Action α) m =
      if m.current.isNone then (raise .yieldOutside : Action α) m
      else if m.running.boundaries != 0 then (raise .yieldAcross : Action α) m
      else .error .yield { m with yielded := vs } := by
  simp only [yieldValues, Action.bind_apply, Action.view_apply]
  split
  · rfl
  · simp only [Action.bind_apply, Action.view_apply]
    split <;> rfl

/-! Erasing -/

namespace Machine

theorem erase_switchTo (m : Machine) (c : CoroutineId) :
    m.erase.switchTo c = (m.switchTo c).erase := by
  have hstrand : ((m.erase.heap.coroutine c).strand).getD default =
      (((m.heap.coroutine c).strand).getD default).erase := by
    rw [erase_heap, Heap.erase_coroutine]
    cases h : (m.heap.coroutine c).strand with
    | none => simp [Coroutine.erase, h, default]
    | some s => simp [Coroutine.erase, h]
  have hheap : m.erase.modifyHeap (fun h => h.modifyCoroutine c fun _ => ⟨.running, none⟩) =
      (m.modifyHeap fun h => h.modifyCoroutine c fun _ => ⟨.running, none⟩).erase :=
    m.erase_modifyHeap fun h =>
      (h.erase_modifyCoroutine c (f := fun _ => ⟨.running, none⟩) fun _ => rfl).symm
  simp only [switchTo, hstrand, hheap, erase_setCurrentStatus]
  rfl

theorem erase_resumed (m : Machine) (c : CoroutineId) :
    m.erase.resumed c = (m.resumed c).erase := by
  simp only [resumed, erase_switchTo]
  rfl

theorem erase_switchBack (m : Machine) (c : CoroutineId) (resumer : Option CoroutineId) :
    m.erase.switchBack c resumer = (m.switchBack c resumer).erase := by
  simp only [switchBack, erase_parked]
  cases m.parked with
  | nil => rfl
  | cons s parked =>
    rw [← erase_setCurrentStatus]
    refine congrArg (setCurrentStatus · .running) ?_
    exact erase_modifyHeap { m with running := s, parked := parked, current := resumer } fun h =>
      (h.erase_modifyCoroutine c (f := fun co => ⟨co.status, some m.running⟩)
        (g := fun co => ⟨co.status, some m.running.erase⟩) fun _ => rfl).symm

theorem erase_resumedFrom (m : Machine) (c : CoroutineId) (resumer : Option CoroutineId)
    (status : CoroutineStatus) :
    m.erase.resumedFrom c resumer status = (m.resumedFrom c resumer status).erase := by
  simp only [resumedFrom, ← erase_setStatus, ← erase_switchBack]
  rfl

theorem erase_resetRunning (m : Machine) : m.erase.resetRunning = m.resetRunning.erase := by
  simp only [resetRunning, modifyBoth, erase, Heap.erase_closeCells]
  simp [Strand.erase, Strand.modifyFrames]

end Machine

theorem Setting.sound_resetRunning (hm : S.Sound m) :
    S.Sound m.resetRunning ∧ m.heap.Extends m.resetRunning.heap ∧
      m.resetRunning.parked = m.parked := by
  obtain ⟨cells, openCells, heq⟩ := m.heap.closeCells_eq m.running 0
  have hreset : m.resetRunning =
      { m with
        heap := { m.heap with cells := cells }
        running := { m.running with openCells := openCells, frames := #[], top := 0, boundaries := 0 } } := by
    simp only [Machine.resetRunning, Machine.modifyBoth, heq]
  have hx : m.heap.Extends { m.heap with cells := cells } := .of_eq rfl
  rw [hreset]
  refine ⟨⟨hm.closures, hm.caches, fun co hco => (hm.coroutines co hco).mono hx (.refl co), ?_,
    fun s hs => (hm.parked s hs).mono hx (.refl s)⟩, hx, rfl⟩
  intro f hf
  simp at hf

section

variable (hS : S.Valid) {runl runr : Run} (hrun : S.Engines runl runr)

include hS hrun

theorem resumeSuspended_alike (hm : S.Sound m) {c : CoroutineId}
    (hc : (m.heap.coroutine c).status = .suspended) (args : List Value) :
    S.Alike id (resumeSuspended runl c args (S.left m)) (resumeSuspended runr c args m)
      (S.Settles false m) := by
  obtain ⟨hsound, hres, hx, hparked⟩ := sound_resumed hm hc
  rw [resumeSuspended_apply, resumeSuspended_apply, left_comm (f := (·.resumed c))
    (fun m => m.erase_resumed c), left_eq (f := (·.current)) fun _ => rfl]
  have hback (m' : Machine) (st : CoroutineStatus) : (S.left m').resumedFrom c m.current st =
      S.left (m'.resumedFrom c m.current st) :=
    left_comm (f := (·.resumedFrom c m.current st)) (fun m' => m'.erase_resumedFrom c _ st) m'
  rcases runCoroutine_alike hrun hsound hres args with ⟨m', hl⟩ | ⟨hl, hr⟩
  · refine .inl ⟨m', ?_⟩
    have hne : S.alarm ≠ .yield := fun h => by simpa [h, Fault.isFatal] using hS.alarm
    simp only [hl, resumeFailed_of_ne _ _ _ hne, hS.alarm, ↓reduceIte]
  · rw [hl]
    right
    cases hr' : runCoroutine runr args (m.resumed c) with
    | ok vs m' =>
      rw [hr'] at hr
      obtain ⟨hm', hk, -⟩ := hr
      exact ⟨congrArg (EStateM.Result.ok _) (hback m' .dead),
        calm_resumedFrom _ .dead hm' (hx.trans hk.closures) (hparked ▸ hk.parked) (by simp)⟩
    | error e m' =>
      rw [hr'] at hr
      rcases eq_or_ne e .yield with rfl | hne
      · have hstop := hr.resolve_left (by simp [Fault.isFatal])
        obtain ⟨hb, hsus⟩ := hstop.yield rfl
        have hcalm := calm_resumedFrom m.current .suspended hstop.sound (hx.trans hstop.kept.closures)
          (hparked ▸ hstop.kept.parked) (c := c) fun _ => ⟨hb, .inr hsus⟩
        simp only [Outcome.map, resumeFailed, hback]
        refine ⟨?_, hcalm.withoutYielded⟩
        rw [left_eq (f := (·.yielded)) fun _ => rfl,
          left_comm (f := Machine.withoutYielded) fun _ => rfl]
        rfl
      · simp only [Outcome.map, resumeFailed_of_ne _ _ _ hne]
        cases he : e.isFatal <;> simp only [Bool.false_eq_true, ↓reduceIte]
        · have hstop := hr.resolve_left (by simp [he])
          obtain ⟨hreset, hx', hparked'⟩ := sound_resetRunning hstop.sound
          rw [left_comm (f := Machine.resetRunning) Machine.erase_resetRunning, hback]
          refine ⟨rfl, calm_resumedFrom _ .dead hreset (hx.trans (hstop.kept.closures.trans hx')) ?_
            (by simp)⟩
          rw [hparked', ← hparked]
          exact hstop.kept.parked
        · exact ⟨trivial, .inl he⟩

theorem resume_alike (hm : S.Sound m) (c : CoroutineId) (args : List Value) :
    S.Alike id (resume runl c args (S.left m)) (resume runr c args m) (S.Settles false m) := by
  rw [resume_apply, resume_apply,
    left_eq (f := fun m => (m.heap.coroutine c).status) (fun m => by simp [Coroutine.erase]),
    left_eq (f := (·.options.maxNativeCalls)) fun _ => rfl,
    left_eq (f := (·.nativeCalls)) fun _ => rfl]
  cases hc : (m.heap.coroutine c).status with
  | suspended =>
    dsimp only
    split
    · exact .inr ⟨rfl, hm.calm⟩
    · exact resumeSuspended_alike hS hrun hm hc args
  | _ => exact .inr ⟨rfl, hm.calm⟩

omit hS hrun in
theorem yieldValues_alike (hm : S.Sound m) (vs : List Value) :
    S.Alike id ((yieldValues vs : Action α) (S.left m)) ((yieldValues vs : Action α) m)
      (S.Settles true m) := by
  rw [yieldValues_apply, yieldValues_apply, left_eq (f := (·.current.isNone)) fun _ => rfl,
    left_eq (f := (·.running.boundaries)) fun _ => rfl]
  split
  · exact (Plain.raise .yieldOutside).alike hm
  · split
    · exact (Plain.raise .yieldAcross).alike hm
    · next hb =>
      refine .inr ⟨?_, .inr ⟨?_, ?_, ?_, fun _ => ⟨rfl, by simpa using hb, rfl⟩⟩⟩
      · exact congrArg (EStateM.Result.error Fault.yield)
          (left_comm (f := fun m => { m with yielded := vs }) (fun _ => rfl) m)
      · exact ⟨hm.closures, hm.caches, hm.coroutines, hm.running, hm.parked⟩
      · exact ⟨.refl _, rfl, le_rfl, .refl _⟩
      · exact List.take_prefix _ _

/-- Routines do the same on engines that are alike. -/
theorem Routine.alike {x : Run → Action α} (h : Routine S.program k x) (hm : S.Sound m) :
    S.Alike id (x runl (S.left m)) (x runr m) (S.Settles k m) := by
  induction h generalizing m with
  | plain h => exact h.alike hm
  | bind _ _ ihx ihf =>
    exact (ihx hm).settles_bind fun a m' hr hcalm => ihf a ⟨runr, m, m', hr⟩ hcalm.sound
  | callAt slot argCount wanted => exact callAt_alike hS hrun hm slot argCount wanted
  | call f args => exact (call_alike hS hrun hm f args).imp Recovers.settles
  | @tryCall k β f args onValues onError _ _ ihv ihe =>
    refine ((call_alike hS hrun hm f args).attempt hS.alarm).bind (fun r m' _ hr => ?_) ?_
    · cases r with
      | ok vs => exact (ihv vs hr.sound).imp (.after hr)
      | error e =>
        obtain ⟨hne, hcalm⟩ := hr.2.resolve_left (by simp [hr.1])
        exact (ihe e hne hcalm.sound).imp (.after hcalm)
    · exact fun e m' hr => .inl hr.1
  | protectedCall f args => exact (protectedCall_alike hS hrun hm f args).imp .of_false
  | resume c args => exact (resume_alike hS hrun hm c args).imp .of_false
  | yieldValues vs => exact yieldValues_alike hm vs

end

end LuaMachine
