import LuaMachine.Proofs.ChainRun
import LuaMachine.Proofs.StepLeases

/-!
Runs keep to leases. A machine that is stopped before anything is assigned to places that are looked after
leaves these alone, and the cells that are open stay in order whatever is run.
-/

namespace LuaMachine

/-- A run is stopped before something is assigned to a place that is looked after, or captured that is
no register; no coroutine runs that is not to be resumed. -/
structure Custody.Guards (C : Custody) (P : Option Activation → Machine → Prop) : Prop where
  quiet : ∀ ts o m, m.Steady C.toRegime ts → ¬ C.toRegime.Awake ts → P o m
  assigns : ∀ a m o i, C.place o i → a.Assigns m o i → P (some a) m
  strays : C.bounded = true → ∀ a m, a.Strays m → P (some a) m

variable {C : Custody} {ts : List CoroutineId} {m : Machine} {L : Lease} {α β : Type}
  {P : Option Activation → Machine → Prop}

theorem state_activate (m : Machine) : Outcome.state (activate m) = m := by
  simp only [activate, Action.bind_apply, Action.view_apply]
  cases m.topFrame? with
  | none => rfl
  | some f =>
    cases hc : f.closure? with
    | none => simp only [hc]; rfl
    | some c =>
      simp only [hc, Action.bind_apply, Action.view_apply]
      cases f.unit with
      | none => rfl
      | some u =>
        dsimp only
        split <;> rfl

/-- An action that may be stopped before it begins. -/
theorem Custody.Tends.heed (hk : m.Kempt C.honest C.bounded) (hL : m.Leased C.honest C.bounded L)
    {x : Action α} {moment : Machine → Moment} {o : Option Activation} (hmoment : (moment m).machine = m) (ho : (moment m).activation? = o)
    {f : α → Action β} (h : ¬ P o m → C.Tends L m ((x >>= f) m)) :
    C.Tends L m ((LuaMachine.heed (haltAt P) moment x >>= f) m) := by
  obtain ⟨hstop, hgo⟩ := heed_haltAt (P := P) (x := x) hmoment ho
  rw [Action.bind_apply]
  by_cases hP : P o m
  · rw [hstop hP]
    exact .stay hk hL rfl
  · rw [hgo hP, ← Action.bind_apply]
    exact h hP

/-- Whatever is run keeps to its lease. -/
theorem Custody.Guards.minds (hS : IsCatalog C.program) {embedding : Embedding} {strict : Bool}
    (hembedding : ∀ name, Tame (C.toRegime.host strict) C.Strict (embedding name))
    (hguards : C.Guards P) (fuel : Nat) : C.Minds (watched embedding (haltAt P) fuel) := by
  have hengines := engines_haltAt hS (fun name => (hembedding name).script)
    (P := P) (Q := P) ⟨fun _ _ => id, hguards.quiet⟩
  -- whatever a call or a step has run has less fuel
  induction fuel with
  | zero => exact ⟨hengines 0, fun _ _ hk hL _ => .stay hk hL rfl⟩
  | succ n ih =>
    refine ⟨hengines (n + 1), fun {job ts m L} hm hready hk hL hsuits => ?_⟩
    cases job with
    | call slot argCount wanted =>
      obtain ⟨hslot, hstart⟩ := hready
      obtain ⟨hdepth, hle⟩ := hsuits
      have hstart := hstart.imp_left fun h => And.intro h.1 h.2.1
      simp only [watched, Action.bind_ok (Action.view_apply _ _)]
      refine (startCall_tends hS ih hembedding hm hk hL hdepth hslot hle argCount hstart).bind hm
        (startCall_paired hS ih.engines (fun name => (hembedding name).script) hm hslot argCount
          hstart).right fun o m' _ hm' _ _ hk' hL' => ?_
      cases o with
      | done => exact .stay hk' hL' rfl
      | pushed => exact ih.tends hm' trivial hk' hL' hdepth
    | execute d =>
      simp only [watched, Action.bind_ok (Action.view_apply _ _)]
      split
      · exact .stay hk hL rfl
      · next hlt =>
        have hlt := Nat.not_le.1 hlt
        refine .heed hk hL rfl rfl fun hP => ?_
        have hawake : C.toRegime.Awake ts := by_contra fun h => hP (hguards.quiet ts _ m hm h)
        have hactivate : C.Tends L m (activate m) := .stay hk hL (state_activate m)
        exact hactivate.bind hm (activate_ends hm hlt) fun a m' _ hm' _ hwork hk' hL' =>
          ih.tends hm' ⟨hawake, hwork⟩ hk' hL' hsuits
    | proceed d a =>
      obtain ⟨hawake, j, f, c, hwork⟩ := hready
      simp only [watched]
      refine .heed hk hL rfl rfl fun hP => ?_
      refine (step_tends hS ih hembedding hm hk hL hwork hsuits hawake
        (fun o i hp h => hP (hguards.assigns a m o i hp h))
        fun hb h => hP (hguards.strays hb a m h)).bind hm
        (step_paired hS ih.engines (fun name => (hembedding name).script) hm hawake hwork).right
        fun o m' _ hm' _ hstep hk' hL' => ?_
      cases o with
      | some a' => exact ih.tends hm' ⟨hawake, hstep a' rfl⟩ hk' hL' hsuits
      | none => exact ih.tends hm' trivial hk' hL' hsuits

/-- Frames above a depth keep to a lease as well when the run goes on below, if it is stopped once they are
gone. -/
theorem Custody.Guards.tends_until (hS : IsCatalog C.program) {embedding : Embedding} {strict : Bool}
    (hembedding : ∀ name, Tame (C.toRegime.host strict) C.Strict (embedding name))
    (hguards : C.Guards P) {o : Owner} {d d' : Nat} (hd : d' < d)
    (hstop : ∀ act m, m.running.owner = o → m.depth ≤ d → P act m) (f : Unit → Action β) (fuel : Nat) :
    (∀ {ts m L}, m.Steady C.toRegime ts → m.running.owner = o → d ≤ m.depth →
      m.Kempt C.honest C.bounded → m.Leased C.honest C.bounded L → L.depth ≤ d →
        C.Tends L m ((watched embedding (haltAt P) fuel (.execute d') >>= f) m)) ∧
    ∀ {ts m L j a g c}, m.Steady C.toRegime ts → m.running.owner = o → C.toRegime.Awake ts →
      C.toRegime.AtWork d j a m g c → m.Kempt C.honest C.bounded → m.Leased C.honest C.bounded L →
        L.depth ≤ d → C.Tends L m ((watched embedding (haltAt P) fuel (.proceed d' a) >>= f) m) := by
  induction fuel with
  | zero => exact ⟨fun _ _ _ hk hL _ => .stay hk hL rfl, fun _ _ _ _ hk hL _ => .stay hk hL rfl⟩
  | succ n ih =>
    obtain ⟨hexecute, hproceed⟩ := ih
    have hminds := hguards.minds hS hembedding n
    constructor
    · intro ts m L hm howner hdepth hk hL hle
      simp only [watched, Action.bind_ok (Action.view_apply _ _), bind_assoc]
      rw [if_neg (by omega), bind_assoc]
      refine .heed hk hL rfl rfl fun hP => ?_
      have hlt : d < m.depth := Nat.lt_of_not_le fun hle => hP (hstop none m howner hle)
      have hawake : C.toRegime.Awake ts := by_contra fun h => hP (hguards.quiet ts _ m hm h)
      have hactivate : C.Tends L m (activate m) := .stay hk hL (state_activate m)
      exact hactivate.bind hm (activate_ends hm hlt) fun a m' _ hm' hkeeps hatwork hk' hL' => by
        obtain ⟨_, _, _, hwork⟩ := hatwork
        exact hproceed hm' (hkeeps.owner.trans howner) hawake hwork hk' hL' hle
    · intro ts m L j a g c hm howner hawake hwork hk hL hle
      simp only [watched, bind_assoc]
      refine .heed hk hL rfl rfl fun hP => ?_
      refine (step_tends hS hminds hembedding hm hk hL hwork hle hawake
        (fun o i hp h => hP (hguards.assigns a m o i hp h))
        fun hb h => hP (hguards.strays hb a m h)).bind hm
        (step_paired hS hminds.engines (fun name => (hembedding name).script) hm hawake hwork).right
        fun act m' _ hm' hkeeps hstep hk' hL' => ?_
      have howner' := hkeeps.owner.trans howner
      cases act with
      | some a' =>
        obtain ⟨_, _, _, hwork'⟩ := hstep a' rfl
        exact hproceed hm' howner' hawake hwork' hk' hL' hle
      | none =>
        have hstands : m.Stands ts d := ⟨hwork.depth.trans hwork.lt_depth.le, fun _ => Nat.zero_lt_of_lt hd⟩
        exact hexecute hm' howner' (hkeeps.stands hstands).depth hk' hL' hle

/-- Where nothing is looked after, a run need not be stopped. -/
theorem Custody.minds_run (hS : IsCatalog C.program) (hplace : ¬ C.Strict) (hquiet : ∀ c, ¬ C.quiet c)
    (hbounded : C.bounded = false) {embedding : Embedding} {strict : Bool}
    (hosts : ∀ name, Script (C.toRegime.host strict) (embedding name)) (fuel : Nat) :
    C.Minds (run embedding fuel) := by
  have hguards : C.Guards fun _ _ => False :=
    ⟨fun _ _ _ _ hawake => hawake fun t _ => hquiet t, fun _ _ o i hp _ => hplace ⟨o, i, hp⟩,
      fun h => by simp [hbounded] at h⟩
  have hminds := hguards.minds hS (fun name => (hosts name).tame rfl hplace) fuel
  rwa [← stopAt_eq_haltAt, stopAt_never, watched_none] at hminds

end LuaMachine
