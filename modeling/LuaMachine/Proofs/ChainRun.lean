import LuaMachine.Proofs.Stepping
import LuaMachine.Proofs.Watch

/-!
Runs that stop at given states. Whatever is run keeps the chain of resumptions, also where it is stopped
on the way: two runs of which one is stopped sooner are the same up to there.
-/

namespace LuaMachine

open Classical in
/-- The alarm when the machine is in one of some states. -/
noncomputable def stopAt (P : Machine → Prop) (t : Moment) : Option Fault :=
  if P t.machine then some .crash else none

/-- The frame that is about to make a step, if one is. -/
def Moment.activation? : Moment → Option Activation
  | takeUp _ => none
  | step a _ _ => some a

open Classical in
/-- The alarm at some moments, told apart by the machine and by what makes a step. -/
noncomputable def haltAt (P : Option Activation → Machine → Prop) (t : Moment) : Option Fault :=
  if P t.activation? t.machine then some .crash else none

theorem stopAt_eq_haltAt (P : Machine → Prop) : stopAt P = haltAt fun _ => P := rfl

theorem heed_haltAt {α : Type} {P : Option Activation → Machine → Prop} {moment : Machine → Moment}
    {x : Action α} {m : Machine} {o : Option Activation} (hmoment : (moment m).machine = m)
    (ho : (moment m).activation? = o) :
    (P o m → heed (haltAt P) moment x m = .error .crash m) ∧
      (¬ P o m → heed (haltAt P) moment x m = x m) := by
  unfold heed haltAt
  rw [hmoment, ho]
  exact ⟨fun h => by rw [if_pos h], fun h => by rw [if_neg h]⟩

theorem stopAt_never : (stopAt fun _ => False) = fun _ => none := by
  funext t
  exact if_neg id

/-- Moments at which two runs are stopped, the first no later than the second; no coroutine runs that is
not to be resumed. -/
structure Regime.Guards (S : Regime) (P Q : Option Activation → Machine → Prop) : Prop where
  sooner : ∀ o m, Q o m → P o m
  quiet : ∀ ts o m, m.Steady S ts → ¬ S.Awake ts → Q o m

variable {S : Regime} {ts : List CoroutineId} {m m' : Machine} {d : Nat} {α β : Type}
  {P Q : Option Activation → Machine → Prop}

theorem Machine.Keeps.take_eq (hk : m.Keeps S d m') (hd : d ≤ m.depth) :
    m'.running.frames.toList.take d = m.running.frames.toList.take d := by
  obtain ⟨rest, hrest⟩ := hk.frames
  have hlength : (m.running.frames.toList.take d).length = d := by
    rw [List.length_take, Array.length_toList]
    exact Nat.min_eq_left hd
  rw [← hrest, List.take_append_of_le_length hlength.ge, List.take_take, Nat.min_self]

/-- Two actions that may be stopped before they begin. -/
theorem Regime.Guards.heed (hguards : S.Guards P Q) (hm : m.Steady S ts) {xl xr : Action α}
    {ml mr : Machine → Moment} (o : Option Activation) (hml : (ml m).machine = m)
    (hmr : (mr m).machine = m) (hol : (ml m).activation? = o) (hor : (mr m).activation? = o)
    {fl fr : α → Action β} {good : β → Machine → Prop} {failing : Fault → Machine → Prop}
    (h : S.Awake ts → Paired (S.Ends ts d m good failing) ((xl >>= fl) m) ((xr >>= fr) m)) :
    Paired (S.Ends ts d m good failing) ((LuaMachine.heed (haltAt P) ml xl >>= fl) m)
      ((LuaMachine.heed (haltAt Q) mr xr >>= fr) m) := by
  obtain ⟨hstopl, hgol⟩ := heed_haltAt (P := P) (x := xl) hml hol
  obtain ⟨hstopr, hgor⟩ := heed_haltAt (P := Q) (x := xr) hmr hor
  rw [Action.bind_apply, Action.bind_apply]
  by_cases hQ : Q o m
  · rw [hstopl (hguards.sooner o m hQ), hstopr hQ]
    exact .refl (.stop hm rfl)
  · have hpaired := h (by_contra fun hawake => hQ (hguards.quiet ts o m hm hawake))
    rw [Action.bind_apply, Action.bind_apply] at hpaired
    rw [hgor hQ]
    by_cases hP : P o m
    · rw [hstopl hP]
      exact ⟨.stop hm rfl, hpaired.right, .inr ⟨.crash, m, rfl, rfl, hpaired.right.buries⟩⟩
    · rw [hgol hP]
      exact hpaired

/-- The frame on top is taken up, if it is one of a Lua function. -/
theorem activate_ends (hm : m.Steady S ts) (hd : d < m.depth) :
    S.Ends ts d m (fun a m' => ∃ j f c, S.AtWork d j a m' f c) (fun e _ => e ≠ .yield)
      (activate m) := by
  obtain ⟨fs, f, hfs, hlength⟩ := m.exists_append_frame (Nat.zero_lt_of_lt hd)
  have htop := topFrame?_of_append hfs
  cases hclosure : f.closure? with
  | none =>
    have hactivate : activate m = .error (.malformed .hostFrame) m := by
      simp [activate, Action.bind_apply, htop, hclosure]
    rw [hactivate]
    exact .fail hm (by simp)
  | some c =>
    have hwork (engine : Engine) (hengine : engine = .interpreter ∨
        ∃ u, engine = .threaded u ∧ (m.heap.closure c).proto.IsUnit u)
        (hunit : ∀ u, f.unit = some u → engine = .threaded u) :
        S.AtWork d fs.length ⟨⟨m.heap.closure c, f.base⟩, engine, f.pc⟩ m f c :=
      ⟨by rw [hfs, List.getElem?_concat_length], by omega, hclosure, rfl, rfl, hengine, hunit,
        fun _ => hlength.symm⟩
    rw [activate_eq_takeUp htop, takeUp_apply htop hclosure]
    cases hunit : f.unit with
    | none => exact .pure hm ⟨_, f, c, hwork _ (.inl rfl) (by simp [hunit])⟩
    | some u =>
      have hisUnit := (hm.tidy_running.frames f (hfs ▸ by simp) c hclosure).2 u hunit
      have hengine : Engine.ofUnit u = .threaded u := by simp [Engine.ofUnit, hisUnit.native]
      dsimp only
      split
      · exact .pure hm ⟨_, f, c, hwork _ (.inr ⟨u, hengine, hisUnit⟩) (by simp [hunit, hengine])⟩
      · exact .fail hm (by simp)

section

variable (hS : IsCatalog S.program) {embedding : Embedding} {strict : Bool}
  (hembedding : ∀ name, Script (S.host strict) (embedding name)) (hguards : S.Guards P Q)

include hS hembedding hguards

/-- Jobs keep the chain of resumptions, wherever they are stopped. -/
theorem engines_haltAt (fuel : Nat) :
    S.Engines (watched embedding (haltAt P) fuel) (watched embedding (haltAt Q) fuel) := by
  -- whatever a call or a step has run has less fuel
  induction fuel with
  | zero => exact fun job ts m hm _ => .refl (.stop hm rfl)
  | succ n ih =>
    intro job ts m hm hready
    cases job with
    | call slot argCount wanted =>
      obtain ⟨hslot, hstart⟩ := hready
      have hcall := (startCall_paired hS ih hembedding hm hslot argCount
        (hstart.imp_left fun h => ⟨h.1, h.2.1⟩)).imp fun _ hr => hr.kept.imp (fun _ _ => And.right)
          fun e m' ⟨hk, hf⟩ => show e = Fault.yield → S.Suspends ts m' from fun he => by
            obtain ⟨hnot, hyield⟩ := hf he
            obtain ⟨-, -, hboundaries⟩ := hstart.resolve_right fun h => hnot h.1
            obtain ⟨hawake, hframes, hhonest⟩ := hyield rfl
            refine ⟨hawake, hframes, fun hS => ?_⟩
            have hpos := hboundaries hS
            rw [← hk.boundaries, (hhonest hS).2.1] at hpos
            exact absurd hpos (Nat.lt_irrefl 0)
      simp only [watched, Action.bind_ok (Action.view_apply _ _)]
      refine hcall.bind fun o m' _ hm' _ ho => ?_
      cases o with
      | done => exact .refl (.pure hm' fun h => ho.2 (h.resolve_right ho.1))
      | pushed =>
        obtain ⟨f, hfs⟩ := ho
        refine (ih (.execute m.depth) ts m' hm' trivial).imp fun _ hr =>
          hr.imp (fun _ m'' h _ => Array.toList_inj.1 ?_) fun _ _ => id
        rw [h, hfs, Machine.depth, ← Array.length_toList, List.take_left]
    | execute d =>
      simp only [watched, Action.bind_ok (Action.view_apply _ _), Setting.depthAfter]
      split
      · next hle =>
        refine .refl (.pure hm ?_)
        exact (List.take_of_length_le (by rw [Array.length_toList]; exact hle)).symm
      · next hlt =>
        have hlt := Nat.not_le.1 hlt
        refine hguards.heed hm none rfl rfl rfl rfl fun hawake => ?_
        refine (Paired.refl (activate_ends hm hlt).never).bind fun a m' _ hm' hk hwork => ?_
        refine (ih (.proceed d a) ts m' hm' ⟨hawake, hwork⟩).imp fun _ hr =>
          hr.imp (fun _ m'' h => ?_) fun _ _ => id
        exact h.trans (hk.take_eq hlt.le)
    | proceed d a =>
      obtain ⟨hawake, j, f, c, hwork⟩ := hready
      have hd : d ≤ m.depth := hwork.depth.trans hwork.lt_depth.le
      simp only [watched, Setting.depthAfter]
      refine hguards.heed hm (some a) rfl rfl rfl rfl fun _ => ?_
      refine (step_paired hS ih hembedding hm hawake hwork).bind fun o m' _ hm' hk hstep => ?_
      have hgoOn (job : Job) (hready : S.Ready ts m' job) (hdepth : Setting.depthAfter job m' = d)
          (hdone : ∀ m'', S.Done m' job m'' →
            m''.running.frames.toList = m'.running.frames.toList.take d) :
          Paired (S.Ends ts d m' (fun _ => S.Done m (.proceed d a)) fun e m' =>
            e = .yield → S.Suspends ts m') (watched embedding (haltAt P) n job m')
            (watched embedding (haltAt Q) n job m') := by
        have hpaired := ih job ts m' hm' hready
        rw [hdepth] at hpaired
        exact hpaired.imp fun _ hr => hr.imp (fun _ m'' h => (hdone m'' h).trans (hk.take_eq hd))
          fun _ _ => id
      cases o with
      | some a' => exact hgoOn (.proceed d a') ⟨hawake, hstep a' rfl⟩ rfl fun _ => id
      | none => exact hgoOn (.execute d) trivial rfl fun _ => id

omit hguards in
/-- Likewise where they are stopped in given states. -/
theorem engines_stopAt {P Q : Machine → Prop} (hguards : S.Guards (fun _ => P) fun _ => Q)
    (fuel : Nat) : S.Engines (watched embedding (stopAt P) fuel) (watched embedding (stopAt Q) fuel) := by
  rw [stopAt_eq_haltAt, stopAt_eq_haltAt]
  exact engines_haltAt hS hembedding hguards fuel

end

end LuaMachine
