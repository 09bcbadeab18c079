import LuaMachine.Proofs.Lockstep

/-!
Calls from native code do the same on engines that are alike, as do sequences of basic actions.
-/

namespace LuaMachine

namespace Setting

variable {S : Setting} {α β : Type} {m m' : Machine} {k : Bool}

theorem Sound.calm (hm : S.Sound m) : S.Calm m m := .refl hm

/-- A fault that is no yield, at a state where nothing was lost. -/
theorem Calm.stops {yielding : Machine → Prop} {e : Fault} (h : S.Calm m m') (he : e ≠ .yield) :
    S.Stops m m.depth yielding e m' where
  sound := h.sound
  kept := h.kept
  frames := by rw [h.frames]; exact List.take_prefix _ _
  yield := fun h => absurd h he

theorem Stops.imp {depth : Nat} {p q : Machine → Prop} {e : Fault} (h : S.Stops m depth p e m')
    (hpq : e = .yield → p m' → q m') : S.Stops m depth q e m' :=
  ⟨h.sound, h.kept, h.frames, fun he => hpq he (h.yield he)⟩

/-- What comes after a calm stretch counts from its start. -/
theorem Stops.after {m₁ : Machine} {yielding : Machine → Prop} {e : Fault} (h : S.Calm m m₁)
    (hs : S.Stops m₁ m₁.depth yielding e m') : S.Stops m m.depth yielding e m' where
  sound := hs.sound
  kept := h.kept.trans hs.kept
  frames := by simpa only [Machine.depth, h.frames] using hs.frames
  yield := hs.yield

theorem Settles.after {m₁ : Machine} {r : Outcome α} (h : S.Calm m m₁) (hr : S.Settles k m₁ r) :
    S.Settles k m r := by
  cases r with
  | ok a m' => exact h.trans hr
  | error e m' =>
    refine hr.imp_right fun hs => (hs.after h).imp fun _ hy => ?_
    exact ⟨hy.1, hy.2.1, hy.2.2.trans h.frames⟩

/-- Where nothing yields, more is settled. -/
theorem Settles.of_false {r : Outcome α} (hr : S.Settles false m r) : S.Settles k m r := by
  cases r with
  | ok a m' => exact hr
  | error e m' => exact hr.imp_right fun hs => hs.imp fun _ hy => absurd hy.1 Bool.false_ne_true

/-- The outcome of a call whose frames are dropped when it fails. -/
def Recovers (S : Setting) (m : Machine) {α : Type} : Outcome α → Prop
  | .ok _ m' => S.Calm m m'
  | .error e m' => e.isFatal = true ∨ e ≠ .yield ∧ S.Calm m m'

theorem Recovers.settles {r : Outcome α} (hr : S.Recovers m r) : S.Settles k m r := by
  cases r with
  | ok a m' => exact hr
  | error e m' => exact hr.imp_right fun ⟨he, hcalm⟩ => hcalm.stops he

/-- A sequence of steps that settle settles. -/
theorem Alike.settles_bind {xl : Action α} {fl : α → Action β} {xr : Action α} {fr : α → Action β}
    (hx : S.Alike id (xl (S.left m)) (xr m) (S.Settles k m))
    (hf : ∀ a m', xr m = .ok a m' → S.Calm m m' →
      S.Alike id (fl a (S.left m')) (fr a m') (S.Settles k m')) :
    S.Alike id ((xl >>= fl) (S.left m)) ((xr >>= fr) m) (S.Settles k m) :=
  hx.bind (fun a m' hr hcalm => (hf a m' hr hcalm).imp (.after hcalm)) fun _ _ h => h

end Setting

open Setting

variable {S : Setting} {α : Type} {m : Machine} {k : Bool} {held : List Value}

theorem Plain.alike {x : Action α} (h : Plain S.program x) (hm : S.Sound m) :
    S.Alike id (x (S.left m)) (x m) (S.Settles k m) := by
  induction h generalizing m with
  | @primitive _ x hx =>
    refine .inr ⟨left_apply hx.erase m, ?_⟩
    have hcalm := hx.calm hm
    cases hr : x m with
    | ok a m' =>
      rw [hr] at hcalm
      exact hcalm
    | error e m' =>
      rw [hr] at hcalm
      obtain ⟨rfl, he⟩ := hcalm
      exact .inr (hm.calm.stops he)
  | pure a => exact .pure hm.calm
  | bind _ _ ihx ihf =>
    exact (ihx hm).settles_bind fun a m' hr hcalm => ihf a ⟨m, m', hr⟩ hcalm.sound

/-- The state inside a nested call. -/
def Machine.entered (m : Machine) (held : List Value) : Machine :=
  { m with nativeCalls := m.nativeCalls + 1, held := held ++ m.held }.modifyRunning fun s =>
    { s with boundaries := s.boundaries + 1 }

/-- The state after a nested call. -/
def Machine.exited (m : Machine) (held : List Value) : Machine :=
  { m with nativeCalls := m.nativeCalls - 1, held := held }.modifyRunning fun s =>
    { s with boundaries := s.boundaries - 1 }

/-- What happened inside a nested call, seen from outside. -/
theorem Machine.Kept.exited {m m' : Machine} {held : List Value} (h : (m.entered held).Kept m') :
    m.Kept (m'.exited m.held) where
  closures := h.closures
  boundaries := by
    change m'.running.boundaries - 1 = m.running.boundaries
    rw [h.boundaries]
    rfl
  stack := h.stack
  parked := h.parked

theorem Machine.take_depth (m : Machine) :
    m.running.frames.toList.take m.depth = m.running.frames.toList :=
  List.take_of_length_le (by simp [Machine.depth])

@[simp]
theorem enterNative_apply (held : List Value) (m : Machine) :
    enterNative held m = .ok () (m.entered held) := rfl

@[simp]
theorem leaveNative_apply (held : List Value) (m : Machine) :
    leaveNative held m = .ok () (m.exited held) := rfl

/-- The state after the frames above a depth were dropped. -/
def Machine.unwound (m : Machine) (depth boundary : Nat) : Machine :=
  (m.modifyBoth fun h s => h.closeCells s boundary).modifyRunning fun s =>
    { s.modifyFrames (·.shrink depth) with top := boundary }

@[simp]
theorem unwind_apply (depth boundary : Nat) (m : Machine) :
    unwind depth boundary m = .ok () (m.unwound depth boundary) := rfl

theorem Machine.erase_unwound (m : Machine) (depth boundary : Nat) :
    m.erase.unwound depth boundary = (m.unwound depth boundary).erase := by
  have hclose : m.erase.modifyBoth (fun h s => h.closeCells s boundary) =
      (m.modifyBoth fun h s => h.closeCells s boundary).erase := by
    simp only [modifyBoth, erase, Heap.erase_closeCells]
  unfold unwound
  rw [hclose]
  refine erase_modifyRunning _ fun s => ?_
  simp [Strand.erase, Strand.modifyFrames]

theorem call_apply (run : Run) (f : Value) (args : List Value) (m : Machine) :
    call run f args m =
      match callValue run f args m with
      | .ok vs m' => .ok vs m'
      | .error e m' =>
        if e.isFatal then .error e m'
        else .error (m'.addTraceback e) (m'.unwound m.depth m.callBase) := by
  simp only [call, Action.bind_apply, Action.view_apply, Action.attempt_apply]
  cases callValue run f args m with
  | ok vs m' => rfl
  | error e m' => cases he : e.isFatal <;> simp [he, Action.bind_apply]

theorem protectedCall_apply (run : Run) (f : Value) (args : List Value) (m : Machine) :
    protectedCall run f args m =
      match callValue run f args m with
      | .ok vs m' => .ok (true, vs) m'
      | .error e m' =>
        if e.isFatal then .error e m'
        else .ok (false, [e.value]) (m'.unwound m.depth m.callBase) := by
  simp only [protectedCall, Action.bind_apply, Action.view_apply, Action.attempt_apply]
  cases callValue run f args m with
  | ok vs m' => rfl
  | error e m' => cases he : e.isFatal <;> simp [he, Action.bind_apply]

theorem Machine.addTraceback_ne_yield {e : Fault} (he : e ≠ .yield) :
    m.addTraceback e ≠ .yield := by
  unfold addTraceback
  split
  · simp
  · exact he

theorem callAt_apply (run : Run) (slot argCount : Nat) (wanted : Option Nat) (held : List Value)
    (m : Machine) :
    callAt run slot argCount wanted held m =
      if m.options.maxNativeCalls ≤ m.nativeCalls then
        .error (.stackOverflow m.position true) m
      else
        match run (.call slot argCount wanted) (m.entered held) with
        | .ok _ m' => .ok () (m'.exited m.held)
        | .error e m' => if e.isFatal then .error e m' else .error e (m'.exited m.held) := by
  simp only [callAt, Action.bind_apply, Action.view_apply, decide_eq_true_eq]
  split
  · simp [Action.bind_apply]
  · simp only [Action.bind_apply, Action.view_apply, enterNative_apply, leaveNative_apply,
      Action.attempt_apply]
    cases run (.call slot argCount wanted) (m.entered held) with
    | ok a m' => rfl
    | error e m' => cases he : e.isFatal <;> simp [he]

namespace Setting

theorem Sound.entered (hm : S.Sound m) : S.Sound (m.entered held) :=
  ⟨hm.closures, hm.caches, hm.coroutines, hm.running, hm.parked⟩

theorem Sound.exited (hm : S.Sound m) : S.Sound (m.exited held) :=
  ⟨hm.closures, hm.caches, hm.coroutines, hm.running, hm.parked⟩

/-- Nothing yields out of a nested call. -/
theorem Stops.exited {m' : Machine} {e : Fault} {q r : Machine → Prop}
    (h : S.Stops (m.entered held) (m.entered held).depth (fun m' => m'.running.boundaries = 0 ∧ q m') e m') :
    S.Stops m m.depth r e (m'.exited m.held) where
  sound := h.sound.exited
  kept := h.kept.exited
  frames := h.frames
  yield := by
    intro he
    have hb := h.kept.boundaries
    rw [(h.yield he).1] at hb
    exact absurd hb (Nat.zero_ne_add_one _)

/-- Once the frames of a failed call are dropped all is as it was before. -/
theorem Stops.calm_unwound {m' : Machine} {yielding : Machine → Prop} {e : Fault}
    (h : S.Stops m m.depth yielding e m') (boundary : Nat) :
    S.Calm m (m'.unwound m.depth boundary) := by
  have hclose := h.sound.calm_closeUpvalues boundary
  unfold Machine.unwound
  generalize m'.modifyBoth (fun h s => h.closeCells s boundary) = m₁ at hclose
  have hkept := h.kept.trans hclose.kept
  have hframes : (m₁.running.frames.shrink m.depth).toList = m.running.frames.toList := by
    have hbelow := h.frames
    rw [m.take_depth, List.prefix_iff_eq_take] at hbelow
    rw [hclose.frames, Array.toList_shrink]
    exact hbelow.symm
  refine ⟨⟨hclose.sound.closures, hclose.sound.caches, hclose.sound.coroutines, fun f hf => ?_,
    hclose.sound.parked⟩, ⟨hkept.closures, hkept.boundaries, hkept.stack, hkept.parked⟩,
    Array.toList_inj.1 hframes⟩
  have hf' : f ∈ m₁.running.frames.toList :=
    List.mem_of_mem_take ((Array.toList_shrink ▸ Array.mem_toList_iff.2 hf :
      f ∈ m₁.running.frames.toList.take m.depth))
  exact hclose.sound.running f (Array.mem_toList_iff.1 hf')

theorem left_entered (m : Machine) (held : List Value) :
    (S.left m).entered held = S.left (m.entered held) :=
  left_comm (f := (·.entered held)) (fun _ => rfl) m

theorem left_exited (m : Machine) (held : List Value) : (S.left m).exited held = S.left (m.exited held) :=
  left_comm (f := (·.exited held)) (fun _ => rfl) m

theorem left_unwound (m : Machine) (depth boundary : Nat) :
    (S.left m).unwound depth boundary = S.left (m.unwound depth boundary) :=
  left_comm (f := (·.unwound depth boundary)) (fun m => m.erase_unwound depth boundary) m

end Setting

section

variable (hS : S.Valid) {runl runr : Run} (hrun : S.Engines runl runr)

include hS hrun

theorem callAt_alike (hm : S.Sound m) (slot argCount : Nat) (wanted : Option Nat) :
    S.Alike id (callAt runl slot argCount wanted held (S.left m)) (callAt runr slot argCount wanted held m)
      (S.Settles k m) := by
  rw [callAt_apply, callAt_apply, left_eq (f := (·.options.maxNativeCalls)) (fun _ => rfl),
    left_eq (f := (·.nativeCalls)) (fun _ => rfl), left_eq Machine.erase_position, left_entered,
    left_eq (f := (·.held)) (fun _ => rfl)]
  split
  · exact .inr ⟨rfl, .inr (hm.calm.stops (by simp))⟩
  · rcases hrun (.call slot argCount wanted) (m.entered held) hm.entered trivial with ⟨m', hl⟩ | ⟨hl, hr⟩
    · refine .inl ⟨m', ?_⟩
      rw [show runl (.call slot argCount wanted) (S.left (m.entered held)) = _ from hl]
      simp [hS.alarm]
    · rw [show runl (.call slot argCount wanted) (S.left (m.entered held)) = _ from hl]
      right
      cases hr' : runr (.call slot argCount wanted) (m.entered held) with
      | ok a m' =>
        rw [hr'] at hr
        obtain ⟨hsound, hkept, hframes⟩ := hr
        refine ⟨congrArg (EStateM.Result.ok ()) (left_exited m' m.held), hsound.exited, hkept.exited, ?_⟩
        exact Array.toList_inj.1 (hframes.trans (m.entered held).take_depth)
      | error e m' =>
        rw [hr'] at hr
        cases he : e.isFatal <;> simp only [Outcome.map, he]
        · refine ⟨congrArg (EStateM.Result.error e) (left_exited m' m.held), .inr ?_⟩
          exact (hr.resolve_left (by simp [he])).exited
        · exact ⟨rfl, .inl he⟩

theorem callValue_alike (hm : S.Sound m) (f : Value) (args : List Value) :
    S.Alike id (callValueHolding runl held f args (S.left m)) (callValueHolding runr held f args m)
      (S.Settles false m) := by
  unfold callValueHolding
  refine ((Plain.placeCall f args).alike hm).settles_bind fun slot m₁ _ h₁ => ?_
  refine (callAt_alike hS hrun h₁.sound _ _ _).settles_bind fun _ m₂ _ h₂ => ?_
  refine ((Plain.view (·.running.top) fun _ => rfl).alike h₂.sound).settles_bind
    fun top m₃ _ h₃ => ?_
  refine ((Plain.takeSlots slot _).alike h₃.sound).settles_bind fun vs m₄ _ h₄ => ?_
  refine ((Plain.primitive (.setTop slot)).alike h₄.sound).settles_bind fun _ m₅ _ h₅ => ?_
  exact (Plain.pure vs).alike h₅.sound

theorem call_alike (hm : S.Sound m) (f : Value) (args : List Value) :
    S.Alike id (call runl f args (S.left m)) (call runr f args m) (S.Recovers m) := by
  rw [call_apply, call_apply, left_eq Machine.erase_depth, left_eq Machine.erase_callBase]
  have hcall : S.Alike id (callValue runl f args (S.left m)) (callValue runr f args m)
      (S.Settles false m) := callValue_alike hS hrun hm f args
  rcases hcall with ⟨m', hl⟩ | ⟨hl, hr⟩
  · exact .inl ⟨m', by simp [hl, hS.alarm]⟩
  · rw [hl]
    right
    cases hr' : callValue runr f args m with
    | ok vs m' =>
      rw [hr'] at hr
      exact ⟨rfl, hr⟩
    | error e m' =>
      rw [hr'] at hr
      cases he : e.isFatal <;> simp only [Outcome.map, he]
      · have hstop := hr.resolve_left (by simp [he])
        have hne : e ≠ .yield := fun h => Bool.false_ne_true (hstop.yield h).1
        rw [left_eq (f := (·.addTraceback e)) (fun m => m.erase_addTraceback e),
          left_unwound]
        exact ⟨rfl, .inr ⟨Machine.addTraceback_ne_yield hne, hstop.calm_unwound _⟩⟩
      · exact ⟨rfl, .inl he⟩

theorem protectedCall_alike (hm : S.Sound m) (f : Value) (args : List Value) :
    S.Alike id (protectedCall runl f args (S.left m)) (protectedCall runr f args m)
      (S.Settles false m) := by
  rw [protectedCall_apply, protectedCall_apply, left_eq Machine.erase_depth,
    left_eq Machine.erase_callBase]
  have hcall : S.Alike id (callValue runl f args (S.left m)) (callValue runr f args m)
      (S.Settles false m) := callValue_alike hS hrun hm f args
  rcases hcall with ⟨m', hl⟩ | ⟨hl, hr⟩
  · exact .inl ⟨m', by simp [hl, hS.alarm]⟩
  · rw [hl]
    right
    cases hr' : callValue runr f args m with
    | ok vs m' =>
      rw [hr'] at hr
      exact ⟨rfl, hr⟩
    | error e m' =>
      rw [hr'] at hr
      cases he : e.isFatal <;> simp only [Outcome.map, he]
      · rw [left_unwound]
        exact ⟨rfl, (hr.resolve_left (by simp [he])).calm_unwound _⟩
      · exact ⟨rfl, .inl he⟩

end

end LuaMachine
