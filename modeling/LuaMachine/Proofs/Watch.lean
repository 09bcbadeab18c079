import LuaMachine.Proofs.FrameStep

/-!
Runs that are watched. At some moments an alarm may stop a run; what holds at every moment of a run
is what no alarm at other moments ever denies. Two engines that are watched do the same.
-/

namespace LuaMachine

/-- A moment of a run: a frame is taken up, or a step is made. -/
inductive Moment
  | takeUp (m : Machine)
  | step (a : Activation) (m : Machine) (r : Outcome (Option Activation))

def Moment.machine : Moment → Machine
  | takeUp m => m
  | step _ m _ => m

/-- A host function called by a tail call yields. -/
def Moment.TailYields : Moment → Prop
  | takeUp _ => False
  | step a _ r => a.TailCalls ∧ ∃ m', r = .error .yield m'

/-- An action, unless there is an alarm at the moment it begins. -/
def heed {α : Type} (alarm : Moment → Option Fault) (moment : Machine → Moment) (x : Action α) :
    Action α := fun m =>
  match alarm (moment m) with
  | none => x m
  | some e => .error e m

section

variable (embedding : Embedding) (alarm : Moment → Option Fault)

/-- Runs a job within a number of steps, or until there is an alarm. -/
def watched : Nat → Run
  | 0, _ => throw .outOfFuel
  | fuel + 1, .call slot argCount wanted => do
    let depth ← view (·.depth)
    match ← startCall embedding (watched fuel) slot argCount wanted with
    | .done => pure ()
    | .pushed => watched fuel (.execute depth)
  | fuel + 1, .execute depth => do
    if (← view (·.depth)) ≤ depth then pure ()
    else
      let a ← heed alarm .takeUp activate
      watched fuel (.proceed depth a)
  | fuel + 1, .proceed depth a => do
    let x := step embedding (watched fuel) a
    match ← heed alarm (fun m => .step a m (x m)) x with
    | some a => watched fuel (.proceed depth a)
    | none => watched fuel (.execute depth)

/-- Something holds at every moment when something is run: alarms at other moments change nothing. -/
def Always {α : Type} (ok : Moment → Prop) (fuel : Nat) (drive : Run → Action α) (m : Machine) :
    Prop :=
  ∀ alarm : Moment → Option Fault, (∀ t, ok t → alarm t = none) →
    drive (watched embedding alarm fuel) m = drive (run embedding fuel) m

end

variable {embedding : Embedding} {α : Type}

/-- A run without alarms is a run of the machine. -/
theorem watched_none (fuel : Nat) : watched embedding (fun _ => none) fuel = run embedding fuel := by
  have hheed {α : Type} (moment : Machine → Moment) (x : Action α) :
      heed (fun _ => none) moment x = x := rfl
  induction fuel with
  | zero => rfl
  | succ n ih =>
    funext job
    cases job with
    | call slot argCount wanted =>
      rw [watched, ih]
      rfl
    | execute depth =>
      rw [watched, hheed, ih]
      rfl
    | proceed depth a =>
      rw [watched, ih]
      simp only [hheed]
      rfl

theorem Always.imp {p q : Moment → Prop} {fuel : Nat} {drive : Run → Action α} {m : Machine}
    (h : Always embedding p fuel drive m) (hpq : ∀ t, p t → q t) :
    Always embedding q fuel drive m :=
  fun alarm hq => h alarm fun t ht => hq t (hpq t ht)

/-- The frame that is taken up first is one of the moments. -/
theorem Always.takeUp {ok : Moment → Prop} {fuel depth : Nat} {m : Machine}
    (h : Always embedding ok (fuel + 1) (· (.execute depth)) m) (hd : depth < m.depth) :
    ok (.takeUp m) := by
  classical
  by_contra hok
  have halarm (e : Fault) : run embedding (fuel + 1) (.execute depth) m = .error e m := by
    refine (h (fun t => if ok t then none else some e) fun t ht => if_pos ht).symm.trans ?_
    simp [watched, heed, Action.bind_apply, Nat.not_le.2 hd, hok]
  simpa using (halarm .crash).symm.trans (halarm .outOfFuel)

namespace Setting

variable (S : Setting)

/-- What holds at a moment of a run of sound machines. -/
def Seen : Moment → Prop
  | .takeUp m => S.Sound m ∧ ∃ f, m.topFrame? = some f ∧ f.Waits S.tails m.heap
  | .step a m r => S.Sound m ∧ (∃ depth below f c, S.AtWork depth a m below f c) ∧
      ∀ a' m', r = .ok (some a') m' → a.LeadsTo a'.pc

/-- Two alarms that stop both runs at some moments, which are told by what is seen before a step. Else there
is an alarm on the left when a tail call yields though it may not, and no other one; on the right there is
none at moments that can be seen. -/
structure Watches (stop alarml alarmr : Moment → Option Fault) : Prop where
  fatal : ∀ t e, stop t = some e → e.isFatal = true
  takeUp : ∀ m, stop (.takeUp (S.left m)) = stop (.takeUp m)
  step : ∀ a m rl rr, stop (.step (S.leftActivation a) (S.left m) rl) = stop (.step a m rr)
  quiet : ∀ t, S.tails = true ∨ ¬ t.TailYields → alarml t = stop t
  loud : ∀ t, S.tails = false → t.TailYields → alarml t = some S.alarm
  early : ∀ t e, stop t = some e → alarmr t = some e
  right : ∀ t, S.Seen t → stop t = none → alarmr t = none

end Setting

open Classical in
/-- The alarm at yields out of tail calls, unless these are allowed. -/
noncomputable def tailAlarm (tails : Bool) (e : Fault) (t : Moment) : Option Fault :=
  if tails = false ∧ t.TailYields then some e else none

theorem watches_tailAlarm (S : Setting) {alarmr : Moment → Option Fault}
    (hr : ∀ t, S.Seen t → alarmr t = none) :
    S.Watches (fun _ => none) (tailAlarm S.tails S.alarm) alarmr where
  fatal _ _ h := by cases h
  takeUp _ := rfl
  step _ _ _ _ := rfl
  quiet _ ht := if_neg fun ⟨hf, hy⟩ =>
    ht.elim (fun h => Bool.false_ne_true (hf.symm.trans h)) fun h => h hy
  loud _ hf hy := if_pos ⟨hf, hy⟩
  early _ _ h := by cases h
  right t ht _ := hr t ht

theorem tailAlarm_true (e : Fault) : tailAlarm true e = fun _ => none := by
  funext t
  simp [tailAlarm]

/-- Where tail calls do not yield, there is no alarm. -/
theorem watched_tailAlarm {tails : Bool} {fuel : Nat} {drive : Run → Action α} {m : Machine}
    (h : tails = true ∨ Always embedding (fun t => ¬ t.TailYields) fuel drive m) (e : Fault) :
    drive (watched embedding (tailAlarm tails e) fuel) m = drive (run embedding fuel) m := by
  rcases h with rfl | h
  · rw [tailAlarm_true, watched_none]
  · exact h _ fun t ht => if_neg fun hy => ht hy.2

open Setting

variable {S : Setting} {m : Machine} {depth : Nat} {a : Activation} {below : List Frame} {f : Frame}
  {c : ClosureId}

namespace Setting

theorem AtWork.tailCalls_left (hS : S.Valid) (hm : S.Sound m) (h : S.AtWork depth a m below f c) :
    (S.leftActivation a).TailCalls ↔ a.TailCalls := by
  rcases h.place with hi | ⟨he, -⟩
  · obtain ⟨word, op, after, -, -, hfetch, hfetchl, -⟩ := h.fetches hS hm rfl hi
    rw [Activation.TailCalls, Activation.TailCalls, hfetch, hfetchl]
  · simp [leftActivation, he]

/-- A place at which a frame that waits goes on holds an instruction. -/
theorem isInstruction_of_isReentry {p : Prototype} {tails : Bool} {pc : Nat}
    (h : p.IsReentry (Opcode.Calls tails) pc) : p.IsInstruction pc := by
  obtain ⟨hlt, rfl | ⟨i, word, op, rfl, hi, hw, hop, hcalls⟩⟩ := h
  · exact Prototype.isInstruction_zero hlt
  · have hcount : p.operandCount word = 0 := by
      rcases hcalls with rfl | ⟨-, rfl⟩ <;> simp [Prototype.operandCount, hop]
    have hnext := hi.next hw
    rw [hcount] at hnext
    exact hnext hlt

/-- The frame on top, if frames from a depth on wait. -/
theorem Waiting.exists_top (hw : S.Waiting depth m) (hd : depth < m.depth) :
    ∃ below f, m.running.frames.toList = below ++ [f] ∧ depth ≤ below.length ∧
      Frame.Linked m.heap (below.drop depth ++ [f]) ∧
      (∀ g ∈ below.drop depth, g.Waits S.tails m.heap) ∧ f.Waits S.tails m.heap := by
  have hlength : m.running.frames.toList.length = m.depth := Array.length_toList
  rcases List.eq_nil_or_concat m.running.frames.toList with hnil | ⟨below, f, hframes⟩
  · simp [hnil] at hlength
    omega
  · have hle : depth ≤ below.length := by
      rw [hframes, List.length_concat] at hlength
      omega
    have hdrop : m.running.frames.toList.drop depth = below.drop depth ++ [f] := by
      rw [hframes, List.concat_eq_append, List.drop_append_of_le_length hle]
    have hwaits (g : Frame) (hg : g ∈ below.drop depth ++ [f]) : g.Waits S.tails m.heap :=
      hw.waits g (hdrop ▸ hg)
    exact ⟨below, f, hframes.trans List.concat_eq_append, hle, hdrop ▸ hw.linked,
      fun g hg => hwaits g (List.mem_append_left _ hg), hwaits f (List.mem_append_right _ (by simp))⟩

/-- The frame on top, of those that wait, is taken up alike. Compiled code that is not entered at one
of its entries is left alone on both sides. -/
theorem activate_alike (hS : S.Valid) (hm : S.Sound m) (hw : S.Waiting depth m)
    (hd : depth < m.depth) :
    S.Alike S.leftActivation (activate (S.left m)) (activate m) (S.Results m depth
      (fun a m' => m' = m ∧ ∃ below f c, S.AtWork depth a m below f c) fun _ => False) := by
  obtain ⟨below, f, hframes, hle, hlinked, hbelow, c, hclosure, hlt, hreentry⟩ := hw.exists_top hd
  have hi := isInstruction_of_isReentry hreentry
  have htop := topFrame?_of_append hframes
  have hatWork (engine : Engine) (hengine : engine = .interpreter ∨
      ∃ u, engine = .threaded u ∧ (m.heap.closure c).proto.IsUnit u) :
      S.AtWork depth ⟨⟨m.heap.closure c, f.base⟩, engine, f.pc⟩ m below f c :=
    ⟨hframes, hle, hbelow, hlinked, hclosure, hlt, rfl, rfl, .inl hi,
      .inl ⟨hi, hw.poised hd f c htop hclosure⟩, hengine⟩
  have hleft (herased : S.erased = true) : activate (S.left m) =
      .ok ⟨⟨(m.heap.closure c).erase, f.base⟩, .interpreter, f.pc⟩ (S.left m) := by
    have hframe : S.leftFrame f = f.erase := by simp [leftFrame, herased]
    have htopl := hframe ▸ left_topFrame? htop
    have hheap : (S.left m).heap.closure c = (m.heap.closure c).erase := by simp [left, herased]
    rw [activate_eq_takeUp htopl, takeUp_apply htopl hclosure, hheap]
    rfl
  -- without erasing, the two sides are one
  have hsame (herased : S.erased = false) {r : Outcome Activation} (hr : activate m = r) :
      activate (S.left m) = Outcome.map S.leftActivation S.left r := by
    have hm : S.left m = m := by simp [left, herased]
    rw [hm, hr]
    cases r <;> simp [Outcome.map, leftActivation, left, herased]
  have hok {engine : Engine} (h : activate m = .ok ⟨⟨m.heap.closure c, f.base⟩, engine, f.pc⟩ m)
      (hengine : engine = .interpreter ∨
        ∃ u, engine = .threaded u ∧ (m.heap.closure c).proto.IsUnit u) :
      S.Alike S.leftActivation (activate (S.left m)) (activate m) (S.Results m depth
        (fun a m' => m' = m ∧ ∃ below f c, S.AtWork depth a m below f c) fun _ => False) := by
    refine .inr ⟨?_, ?_⟩
    · cases herased : S.erased with
      | false => rw [hsame herased h, h]
      | true =>
        rw [hleft herased, h]
        simp only [Outcome.map, leftActivation, herased, ↓reduceIte]
        rfl
    · rw [h]
      exact ⟨hm, .refl m, rfl, below, f, c, hatWork engine hengine⟩
  have hright := (activate_eq_takeUp htop).trans (takeUp_apply htop hclosure f.unit)
  cases hunit : f.unit with
  | none =>
    rw [hunit] at hright
    exact hok hright (.inl rfl)
  | some u =>
    obtain ⟨-, -, hu⟩ := hm.running f (Array.mem_of_back? htop) c hclosure
    have hisUnit := hu u hunit
    have hengine : Engine.ofUnit u = .threaded u := by simp [Engine.ofUnit, hisUnit.native]
    simp only [hunit, hengine] at hright
    split at hright
    · exact hok hright (.inr ⟨u, rfl, hisUnit⟩)
    · next hentry =>
      have herased : S.erased = false := by
        refine Bool.eq_false_iff.2 fun he => hentry ?_
        rw [(Prototype.lowersTo_of_lower hisUnit.lower).isEntry]
        simpa [Prototype.IsReentry, Opcode.Calls, hS.tails he] using hreentry
      refine .inr ⟨?_, ?_⟩
      · rw [hsame herased hright, hright]
      · rw [hright]
        exact .inr ⟨hm, .refl m, List.take_prefix _ _, by simp⟩

end Setting

namespace Setting

/-- What comes after a state that has the frames below the depth counts from before. -/
theorem Runs.after {m₁ : Machine} {r : Outcome Unit} (hk : m.Kept m₁)
    (htake : m₁.running.frames.toList.take depth = m.running.frames.toList.take depth)
    (hr : S.Runs depth m₁ r) : S.Runs depth m r := by
  unfold Runs SuspendedAbove at hr
  rw [htake] at hr
  exact hr.after_kept hk (htake ▸ List.take_prefix _ _)

/-- A step that is watched. Where a tail call yields though it may not, there is an alarm. -/
theorem heed_step_alike (hS : S.Valid) {stop alarml alarmr : Moment → Option Fault}
    (hwatch : S.Watches stop alarml alarmr) (hm : S.Sound m) (h : S.AtWork depth a m below f c)
    {xl xr : Action (Option Activation)}
    (hx : S.Alike (Option.map S.leftActivation) (xl (S.left m)) (xr m) (S.Steps depth a m)) :
    S.Alike (Option.map S.leftActivation)
      (heed alarml (fun m => .step (S.leftActivation a) m (xl m)) xl (S.left m))
      (heed alarmr (fun m => .step a m (xr m)) xr m)
      (S.Results m depth (S.Stepped depth a m) (S.SuspendedAbove depth m)) := by
  by_cases hloud : S.tails = false ∧
      (Moment.step (S.leftActivation a) (S.left m) (xl (S.left m))).TailYields
  · exact .inl ⟨S.left m, by simp only [heed, hwatch.loud _ hloud.1 hloud.2]⟩
  have hleft : alarml (.step (S.leftActivation a) (S.left m) (xl (S.left m))) =
      stop (.step a m (xr m)) :=
    (hwatch.quiet _ (by rw [← Bool.not_eq_false]; exact not_and_or.1 hloud)).trans
      (hwatch.step a m _ _)
  cases hstop : stop (.step a m (xr m)) with
  | some e =>
    right
    simp only [heed, hleft, hstop, hwatch.early _ e hstop]
    exact ⟨rfl, .inl (hwatch.fatal _ e hstop)⟩
  | none =>
    rw [hstop] at hleft
    have hgo : heed alarml (fun m => .step (S.leftActivation a) m (xl m)) xl (S.left m) =
        xl (S.left m) := by simp only [heed, hleft]
    rw [hgo]
    rcases hx with hl | ⟨hl, hr⟩
    · exact .inl hl
    · right
      have hseen : S.Seen (.step a m (xr m)) := by
        refine ⟨hm, ⟨depth, below, f, c, h⟩, fun a' m' ha' => ?_⟩
        rw [ha'] at hr
        exact hr.2.2.2.1
      have hright : heed alarmr (fun m => .step a m (xr m)) xr m = xr m := by
        simp only [heed, hwatch.right _ hseen hstop]
      rw [hright, hl]
      refine ⟨rfl, ?_⟩
      cases hresult : xr m with
      | ok o m' =>
        rw [hresult] at hr
        exact hr
      | error e m' =>
        rw [hresult] at hl hr
        refine hr.imp_right fun hs => ⟨hs.sound, hs.kept, hs.frames, fun he => ?_⟩
        refine (hs.yield he).resolve_left fun ⟨ht, htail⟩ => hloud ⟨ht, ?_, S.left m', ?_⟩
        · exact (h.tailCalls_left hS hm).2 htail
        · rw [hl, he]
          rfl

end Setting

section

variable (hS : S.Valid) (hembedding : ∀ name, Routine S.program true (embedding name))
  {stop alarml alarmr : Moment → Option Fault} (hwatch : S.Watches stop alarml alarmr)

include hS hembedding hwatch

/-- Two engines that are watched do the same. -/
theorem engines_watched (fuel : Nat) :
    S.Engines (watched embedding alarml fuel) (watched embedding alarmr fuel) := by
  -- whatever a call or a step has run has less fuel
  induction fuel with
  | zero => exact fun job m _ _ => .inr ⟨rfl, .inl rfl⟩
  | succ n ih =>
    intro job m hm hready
    cases job with
    | call slot argCount wanted =>
      have hdepth : (S.left m).depth = m.depth := left_eq Machine.erase_depth m
      have hlength : m.running.frames.toList.length = m.depth := Array.length_toList
      have htake := m.take_depth
      have hcall := (startCall_alike hS ih hembedding hm slot argCount wanted rfl).imp fun hr =>
        hr.imp_yield (q := S.SuspendedAbove m.depth m) fun m' hy => by
          obtain ⟨hb, host, hframes, -⟩ := hy
          exact ⟨hb, [host], htake.symm ▸ hframes, [], host, rfl, by simp, .singleton host⟩
      rw [hlength] at hcall
      simp only [leftJob, watched, Action.bind_ok (Action.view_apply _ _), hdepth, depthAfter]
      refine hcall.bind (fun o m' _ hr => ?_) fun e m' he => he
      obtain ⟨hm', hk, hstarted⟩ := hr
      cases o with
      | done => exact .pure ⟨hm', hk, htake.symm ▸ hstarted.1⟩
      | pushed =>
        have hdrop := List.drop_eq_nil_of_le hlength.le
        have hwaiting : S.Waiting m.depth m' := by
          apply hstarted.waiting hlength.ge
          · simp [hdrop]
          · intro g _ _
            rw [hdrop]
            exact .singleton g
        obtain ⟨f, hframes, -⟩ := hstarted
        refine (ih (.execute m.depth) m' hm' hwaiting).imp (.after hk ?_)
        rw [hframes, depthAfter, List.take_append_of_le_length hlength.ge]
    | execute depth =>
      have hdepth : (S.left m).depth = m.depth := left_eq Machine.erase_depth m
      simp only [leftJob, watched, Action.bind_ok (Action.view_apply _ _), hdepth, depthAfter]
      split
      · next hle =>
        refine .pure ⟨hm, .refl m, ?_⟩
        rw [List.take_of_length_le (by rw [Array.length_toList]; exact hle)]
      · next hlt =>
        have hlt := Nat.not_le.1 hlt
        have hseen : S.Seen (.takeUp m) := by
          obtain ⟨below, f, hframes, -, -, -, hf⟩ := hready.exists_top hlt
          exact ⟨hm, f, topFrame?_of_append hframes, hf⟩
        have hleft : alarml (.takeUp (S.left m)) = stop (.takeUp m) :=
          (hwatch.quiet _ (.inr id)).trans (hwatch.takeUp m)
        cases hstop : stop (.takeUp m) with
        | some e =>
          right
          simp only [Action.bind_apply, heed, hleft, hstop, hwatch.early _ e hstop]
          exact ⟨rfl, .inl (hwatch.fatal _ e hstop)⟩
        | none =>
          have hgol : heed alarml .takeUp activate (S.left m) = activate (S.left m) := by
            simp only [heed, hleft, hstop]
          have hgor : heed alarmr .takeUp activate m = activate m := by
            simp only [heed, hwatch.right _ hseen hstop]
          have hactivate := activate_alike hS hm hready hlt
          rw [← hgol, ← hgor] at hactivate
          refine hactivate.bind (fun a m' _ hr => ?_) fun e m' he => ?_
          · obtain ⟨-, -, rfl, h⟩ := hr
            exact ih (.proceed depth a) m' hm h
          · exact he.imp_right fun hs => hs.imp fun _ hy => hy.elim
    | proceed depth a =>
      obtain ⟨below, f, c, h⟩ := hready
      have hstep := heed_step_alike hS hwatch hm h (step_alike hS ih hembedding hm h)
      refine hstep.bind (fun o m' _ hr => ?_) fun e m' he => he
      obtain ⟨hm', hk, hr⟩ := hr
      cases o with
      | some a' => exact (ih (.proceed depth a') m' hm' hr.2.2).imp (.after hk hr.1)
      | none => exact (ih (.execute depth) m' hm' hr.2).imp (.after hk hr.1)

end

/-- An outcome that is one of two whatever the alarm is the one that is no alarm. -/
theorem eq_of_alarms {x y : Outcome α}
    (h : ∀ e : Fault, e.isFatal = true → (∃ m, x = .error e m) ∨ x = y) : x = y := by
  rcases h .crash rfl with ⟨m₁, h₁⟩ | heq
  · rcases h .outOfFuel rfl with ⟨m₂, h₂⟩ | heq
    · simpa using h₁.symm.trans h₂
    · exact heq
  · exact heq

/-- What holds at the moments that can be seen holds at all moments of a run from a sound machine. -/
theorem always_of_seen {U : Prototype → Prop} (hU : IsProgram U)
    (hembedding : ∀ name, Routine U true (embedding name)) {k : Bool} {drive : Run → Action α}
    (hdrive : Routine U k drive) {tails : Bool} (hm : m.Sound U tails) {fuel : Nat}
    (htails : tails = true ∨ Always embedding (fun t => ¬ t.TailYields) fuel drive m)
    {ok : Moment → Prop}
    (hok : ∀ S : Setting, S.Valid → S.program = U → S.tails = tails → ∀ t, S.Seen t → ok t) :
    Always embedding ok fuel drive m := by
  intro alarm halarm
  refine (eq_of_alarms fun e he => ?_).symm
  have hvalid : Valid ⟨U, false, tails, e⟩ := ⟨hU, he, nofun, nofun⟩
  have hwatch : Watches ⟨U, false, tails, e⟩ (fun _ => none) (tailAlarm tails e) alarm :=
    watches_tailAlarm _ fun t ht => halarm t (hok _ hvalid rfl rfl t ht)
  have halike := hdrive.alike hvalid (engines_watched hvalid hembedding hwatch fuel) hm
  rw [show left ⟨U, false, tails, e⟩ m = m from rfl, watched_tailAlarm htails] at halike
  refine halike.imp_right fun ⟨heq, _⟩ => ?_
  rw [heq]
  cases drive (watched embedding alarm fuel) m <;> rfl

/-- Two alarms that agree at all moments that can be seen stop a run from a sound machine alike. -/
theorem watched_eq_of_seen {U : Prototype → Prop} (hU : IsProgram U)
    (hembedding : ∀ name, Routine U true (embedding name)) {k : Bool} {drive : Run → Action α}
    (hdrive : Routine U k drive) (hm : m.Sound U true) {stop alarm : Moment → Option Fault}
    (hfatal : ∀ t e, stop t = some e → e.isFatal = true)
    (hblind : ∀ a m r r', stop (.step a m r) = stop (.step a m r'))
    (hearly : ∀ t e, stop t = some e → alarm t = some e)
    (hseen : ∀ S : Setting, S.Valid → S.program = U → ∀ t, S.Seen t → stop t = none → alarm t = none)
    (fuel : Nat) : drive (watched embedding alarm fuel) m = drive (watched embedding stop fuel) m := by
  refine (eq_of_alarms fun e he => ?_).symm
  have hvalid : Valid ⟨U, false, true, e⟩ := ⟨hU, he, nofun, nofun⟩
  have hwatch : Watches ⟨U, false, true, e⟩ stop stop alarm :=
    ⟨hfatal, fun _ => rfl, fun a m => hblind a m, fun _ _ => rfl,
      fun _ h => (Bool.false_ne_true h.symm).elim, hearly,
      fun t => hseen _ hvalid rfl t⟩
  have halike := hdrive.alike hvalid (engines_watched hvalid hembedding hwatch fuel) hm
  refine halike.imp_right fun ⟨heq, _⟩ => ?_
  rw [show left ⟨U, false, true, e⟩ m = m from rfl] at heq
  rw [heq]
  cases drive (watched embedding alarm fuel) m <;> rfl

end LuaMachine
